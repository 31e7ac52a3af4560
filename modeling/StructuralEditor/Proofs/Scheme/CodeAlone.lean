import StructuralEditor.Proofs.Scheme.Nesting
import StructuralEditor.Proofs.Scheme.Spacing

/-!
# The code alone decides

Texts that read into data with the same lexemes, comments and the shapes of brackets aside, are parsed alike: what
their roots say is the same, or what is wrong with them.

* `Lexeme.rounded`, `Token.rounded` : lexemes and tokens without the shapes of their brackets;
* `Item.forall₂_alike_of_read` : tokens with the same code but for these shapes spell data that differ in their spans;
* `fault?` : what is wrong with a computation, step by step;
* `Datum.fault?_draft` : data that differ in their spans have the same faults;
* `Table.forall₂_content_descendants` : nodes that say the same have nodes below them that say the same, one for one;
* `parse_of_rounded_code_eq` : so it is with texts of the same code.
-/

namespace StructuralEditor

/-! ## Brackets without their shapes -/

namespace Scheme

open Token (code code? tokenize)

/-- The lexeme with a round bracket in place of a square one. -/
def Lexeme.rounded : Lexeme → Lexeme
  | opening _ => opening .round
  | closing _ => closing .round
  | lexeme => lexeme

/-- The token with a round bracket in place of a square one. -/
def Token.rounded (token : Token) : Token := { token with lexeme := token.lexeme.rounded }

theorem Token.code?_rounded (token : Token) : token.rounded.code? = token.code?.map Lexeme.rounded := by
  obtain ⟨lexeme, span⟩ := token
  cases lexeme <;> rfl

theorem Token.code_rounded (tokens : List Token) :
    code (tokens.map Token.rounded) = (code tokens).map Lexeme.rounded := by
  rw [code, code, List.filterMap_map, List.map_filterMap]
  exact congrArg (List.filterMap · tokens) (funext Token.code?_rounded)

namespace Item

theorem Nested.rounded {n : Nat} {tokens : List Token} {items : List Item} (h : Nested n tokens items) :
    Nested n (tokens.map Token.rounded) items := by
  induction h with
  | nil => exact .nil
  | atom text span _ ih => exact .atom text span ih
  | string text span _ ih => exact .string text span ih
  | comment text span _ ih => exact .comment text span ih
  | list bracket opened closed _ _ ihinner ihrest =>
    have h := Nested.list .round opened closed ihinner ihrest
    simpa [Token.rounded, Lexeme.rounded] using h

/-- Tokens with the same code but for the shapes of brackets spell data that are the same but for their spans. -/
theorem forall₂_alike_of_read {tokens tokens' : List Token} {items items' : List Item}
    (h : read tokens = .ok items) (h' : read tokens' = .ok items')
    (hcode : (code tokens).map Lexeme.rounded = (code tokens').map Lexeme.rounded) :
    List.Forall₂ Datum.Alike (data items) (data items') := by
  have hrounded := (read_eq_ok_iff.mp h).rounded
  have hrounded' := (read_eq_ok_iff.mp h').rounded
  rw [← Token.code_rounded, ← Token.code_rounded] at hcode
  obtain ⟨found, hfound, halike⟩ := exists_nested_of_code_eq hrounded hcode
  have hsame := (read_eq_ok_iff.mpr hfound).symm.trans (read_eq_ok_iff.mpr hrounded')
  obtain rfl := Except.ok.inj hsame
  exact halike

end Item

/-! ## Faults -/

def fault? {α : Type} : Except ParseError α → Option ParseFault
  | .ok _ => none
  | .error e => some e.fault

theorem fault?_bind {α α' β β' : Type} {x : Except ParseError α} {y : Except ParseError α'}
    {f : α → Except ParseError β} {g : α' → Except ParseError β'} (h : fault? x = fault? y)
    (hfg : ∀ a b, fault? (f a) = fault? (g b)) : fault? (x >>= f) = fault? (y >>= g) := by
  cases x with
  | error e =>
    cases y with
    | error e' => exact h
    | ok b => cases h
  | ok a =>
    cases y with
    | error e' => cases h
    | ok b => exact hfg a b

namespace Datum

theorem fault?_names (form : Form) {data data' : List Datum} (h : List.Forall₂ Alike data data') :
    fault? (names form data) = fault? (names form data') := by
  unfold names
  induction h with
  | nil => rfl
  | cons hfirst _ ih =>
    rw [List.mapM_cons, List.mapM_cons]
    refine fault?_bind ?_ fun _ _ => fault?_bind ih fun _ _ => rfl
    cases hfirst <;> rfl

mutual

/-- Data that are the same but for their spans have the same faults. -/
theorem fault?_draft : ∀ (datum : Datum) {other : Datum}, datum.Alike other →
    fault? datum.draft = fault? other.draft
  | .atom text span, _, .atom _ _ span' => by
    rw [draft_atom, draft_atom]
    rfl
  | .string text span, _, .string _ _ span' => by
    rw [draft_string, draft_string]
    rfl
  | .list [] span, _, .list _ span' .nil => by
    rw [draft_emptyList, draft_emptyList]
    rfl
  | .list (head :: rest) span, _, .list _ span' (.cons hhead hrest) => by
    unfold draft
    rw [hhead.form?_eq]
    cases hform : head.form? with
    | none =>
      exact fault?_bind (fault?_draft head hhead) fun _ _ =>
        fault?_bind (fault?_draftAll rest hrest) fun _ _ => rfl
    | some form =>
      cases form with
      | define =>
        obtain _ | ⟨⟨⟩ | ⟨⟩ | ⟨_, _, _ | ⟨⟨⟩ | ⟨⟩ | ⟨⟩, hparameters⟩⟩, _ | ⟨hbody, _ | _⟩⟩ := hrest
        case cons.atom.cons.nil => exact fault?_bind (fault?_draft _ hbody) fun _ _ => rfl
        case cons.list.cons.atom.cons.nil =>
          exact fault?_bind (fault?_names .define hparameters) fun _ _ =>
            fault?_bind (fault?_draft _ hbody) fun _ _ => rfl
        all_goals rfl
      | defineStruct =>
        obtain _ | ⟨⟨⟩ | ⟨⟩ | ⟨⟩, _ | ⟨⟨⟩ | ⟨⟩ | ⟨_, _, hfields⟩, _ | _⟩⟩ := hrest
        case cons.atom.cons.list.nil => exact fault?_bind (fault?_names .defineStruct hfields) fun _ _ => rfl
        all_goals rfl
      | lambda =>
        obtain _ | ⟨⟨⟩ | ⟨⟩ | ⟨_, _, hparameters⟩, _ | ⟨hbody, _ | _⟩⟩ := hrest
        case cons.list.cons.nil =>
          exact fault?_bind (fault?_names .lambda hparameters) fun _ _ =>
            fault?_bind (fault?_draft _ hbody) fun _ _ => rfl
        all_goals rfl
      | ifElse =>
        obtain _ | ⟨htest, _ | ⟨hconsequent, _ | ⟨halternative, _ | _⟩⟩⟩ := hrest
        case cons.cons.cons.nil =>
          exact fault?_bind (fault?_draft _ htest) fun _ _ => fault?_bind (fault?_draft _ hconsequent) fun _ _ =>
            fault?_bind (fault?_draft _ halternative) fun _ _ => rfl
        all_goals rfl
      | cond =>
        obtain _ | ⟨hfirst, hothers⟩ := hrest
        · rfl
        · exact fault?_bind (fault?_draftClauses _ (.cons hfirst hothers)) fun _ _ => rfl
      | letForm variety =>
        obtain _ | ⟨⟨⟩ | ⟨⟩ | ⟨_, _, hbindings⟩, _ | ⟨hbody, _ | _⟩⟩ := hrest
        case cons.list.cons.nil =>
          exact fault?_bind (fault?_draftBindings variety _ hbindings) fun _ _ =>
            fault?_bind (fault?_draft _ hbody) fun _ _ => rfl
        all_goals rfl
      | guarded variety =>
        obtain _ | ⟨hpredicate, _ | ⟨hfirst, hothers⟩⟩ := hrest
        · rfl
        · rfl
        · exact fault?_bind (fault?_draft _ hpredicate) fun _ _ =>
            fault?_bind (fault?_draftAll _ (.cons hfirst hothers)) fun _ _ => rfl
      | begin =>
        obtain _ | ⟨hfirst, hothers⟩ := hrest
        · rfl
        · exact fault?_bind (fault?_draftAll _ (.cons hfirst hothers)) fun _ _ => rfl
termination_by datum => sizeOf datum
decreasing_by
  all_goals
    simp only [Datum.list.sizeOf_spec, List.cons.sizeOf_spec, List.nil.sizeOf_spec]
    omega

theorem fault?_draftAll : ∀ (data : List Datum) {others : List Datum}, List.Forall₂ Alike data others →
    fault? (draftAll data) = fault? (draftAll others)
  | [], _, .nil => rfl
  | datum :: rest, _, .cons hfirst hrest => by
    rw [draftAll, draftAll]
    exact fault?_bind (fault?_draft datum hfirst) fun _ _ => fault?_bind (fault?_draftAll rest hrest) fun _ _ => rfl
termination_by data => sizeOf data
decreasing_by
  all_goals
    simp only [List.cons.sizeOf_spec]
    omega

theorem fault?_draftClauses : ∀ (data : List Datum) {others : List Datum}, List.Forall₂ Alike data others →
    fault? (draftClauses data) = fault? (draftClauses others)
  | [], _, .nil => rfl
  | .atom .. :: _, _, .cons (.atom ..) _ => rfl
  | .string .. :: _, _, .cons (.string ..) _ => rfl
  | .list parts span :: rest, _, .cons (.list _ span' hparts) hrest => by
    obtain _ | ⟨htest, _ | ⟨hfirst, hothers⟩⟩ := hparts
    · rfl
    · rfl
    · rw [draftClauses, draftClauses]
      exact fault?_bind (fault?_draft _ htest) fun _ _ =>
        fault?_bind (fault?_draftAll _ (.cons hfirst hothers)) fun _ _ =>
          fault?_bind (fault?_draftClauses rest hrest) fun _ _ => rfl
termination_by data => sizeOf data
decreasing_by
  all_goals
    simp only [Datum.list.sizeOf_spec, List.cons.sizeOf_spec]
    omega

theorem fault?_draftBindings (variety : LetVariety) : ∀ (data : List Datum) {others : List Datum},
    List.Forall₂ Alike data others → fault? (draftBindings variety data) = fault? (draftBindings variety others)
  | [], _, .nil => rfl
  | .atom .. :: _, _, .cons (.atom ..) _ => rfl
  | .string .. :: _, _, .cons (.string ..) _ => rfl
  | .list parts span :: rest, _, .cons (.list _ span' hparts) hrest => by
    obtain _ | ⟨⟨⟩ | ⟨⟩ | ⟨⟩, _ | ⟨hvalue, _ | _⟩⟩ := hparts
    case cons.atom.cons.nil =>
      rw [draftBindings, draftBindings]
      exact fault?_bind (fault?_draft _ hvalue) fun _ _ =>
        fault?_bind (fault?_draftBindings variety rest hrest) fun _ _ => rfl
    all_goals rfl
termination_by data => sizeOf data
decreasing_by
  all_goals
    simp only [Datum.list.sizeOf_spec, List.cons.sizeOf_spec, List.nil.sizeOf_spec]
    omega

end

end Datum

end Scheme

/-! ## Nodes one for one -/

namespace Table

/-- Below nodes that say the same stand nodes that say the same, one for one in document order. -/
theorem forall₂_content_descendants {t u : Table} (ht : t.Ordered) (hu : u.Ordered) {id id' : Nat} {node node' : Node}
    (hnode : t.get? id = some node) (hnode' : u.get? id' = some node') (h : t.content id = u.content id') :
    List.Forall₂ (fun x y => t.content x = u.content y) (t.descendants id) (u.descendants id') := by
  refine List.forall₂_iff_zip.mpr ⟨length_descendants_eq ht hu hnode hnode' h, fun {x y} hpair => ?_⟩
  obtain ⟨steps, hx, hy⟩ := (mem_zip_descendants_iff ht hu hnode hnode' h).mp hpair
  exact (sameForms_of_content_eq ht hu (tag?_eq_of_content ht hu hnode hnode' h) h hx hy).2

end Table

namespace Scheme

open Token (code tokenize)

/-- The roots of the trees that are no comments say the same, and so do all nodes below them, one for one. -/
def SameCode (t u : Tree) : Prop :=
  List.Forall₂ (fun root root' =>
    List.Forall₂ (fun x y => t.table.content x = u.table.content y) (t.descendants root) (u.descendants root'))
    t.codeRoots u.codeRoots

theorem sameCode_of_contents {t u : Tree} (ht : t.Built) (hu : u.Built)
    (h : t.codeRoots.map t.table.content = u.codeRoots.map u.table.content) : SameCode t u := by
  have hget : ∀ {t : Tree}, t.Built → ∀ root ∈ t.codeRoots, ∃ node, t.table.get? root = some node :=
    fun hb root hroot => Table.exists_get?_iff_lt.mpr (hb.roots_lt root (List.mem_of_mem_filter hroot))
  obtain ⟨hlength, hcontent⟩ := List.forall₂_iff_zip.mp (forall₂_of_map_eq_map h)
  refine List.forall₂_iff_zip.mpr ⟨hlength, fun {root root'} hpair => ?_⟩
  obtain ⟨hroot, hroot'⟩ := List.of_mem_zip hpair
  obtain ⟨node, hnode⟩ := hget ht root hroot
  obtain ⟨node', hnode'⟩ := hget hu root' hroot'
  exact Table.forall₂_content_descendants ht.ordered hu.ordered hnode hnode' (hcontent hpair)

/-- Data that are the same but for their spans are both drafted, into drafts of the same contents, or have the same
fault. -/
theorem draftAll_of_alike {data others : List Datum} (h : List.Forall₂ Datum.Alike data others) :
    (∃ e e', Datum.draftAll data = .error e ∧ Datum.draftAll others = .error e' ∧ e.fault = e'.fault) ∨
    ∃ drafts drafts', Datum.draftAll data = .ok drafts ∧ Datum.draftAll others = .ok drafts' ∧
      drafts.map Draft.content = drafts'.map Draft.content := by
  have hfault := Datum.fault?_draftAll data h
  cases hdata : Datum.draftAll data with
  | ok drafts =>
    obtain ⟨drafts', hothers, hcontents⟩ := exists_draftAll_of_alike hdata h
    exact .inr ⟨drafts, drafts', rfl, hothers, hcontents.symm⟩
  | error e =>
    rw [hdata] at hfault
    cases hothers : Datum.draftAll others with
    | ok drafts' =>
      rw [hothers] at hfault
      cases hfault
    | error e' =>
      rw [hothers] at hfault
      exact .inl ⟨e, e', rfl, rfl, Option.some.inj hfault⟩

theorem parse_of_read {source : String} {tokens : List Token} {items : List Item}
    (htokens : tokenize source = .ok tokens) (hitems : Item.read tokens = .ok items) (depth serial : Nat) :
    parse depth serial source = plantProgram depth serial items <$> draftProgram items := by
  rw [parse, htokens]
  show (Item.read tokens >>= _) = _
  rw [hitems]
  rfl

/-- Two texts that can be read, with the same lexemes but for comments and the shapes of brackets: both are refused in
the same words, or both are parsed, and then their roots that are no comments say the same, node by node. -/
theorem parse_of_rounded_code_eq {source source' : String} {tokens tokens' : List Token} {items items' : List Item}
    (htokens : tokenize source = .ok tokens) (htokens' : tokenize source' = .ok tokens')
    (hitems : Item.read tokens = .ok items) (hitems' : Item.read tokens' = .ok items')
    (hcode : (code tokens).map Lexeme.rounded = (code tokens').map Lexeme.rounded) (depth serial depth' serial' : Nat) :
    (∃ e e', parse depth serial source = .error e ∧ parse depth' serial' source' = .error e' ∧
      e.fault.message = e'.fault.message) ∨
    ∃ t u, parse depth serial source = .ok t ∧ parse depth' serial' source' = .ok u ∧
      t.codeRoots.map t.table.content = u.codeRoots.map u.table.content ∧ SameCode t u := by
  rw [parse_of_read htokens hitems, parse_of_read htokens' hitems']
  rcases draftAll_of_alike (Item.forall₂_alike_of_read hitems hitems' hcode) with
    ⟨e, e', he, he', hfault⟩ | ⟨drafts, drafts', hdrafts, hdrafts', hcontents⟩
  · refine .inl ⟨e, e', ?_, ?_, congrArg ParseFault.message hfault⟩
    · rw [draftProgram, he]
      rfl
    · rw [draftProgram, he']
      rfl
  · have hroots := (codeRoots_plantProgram hdrafts depth serial).2
    rw [hcontents, ← (codeRoots_plantProgram hdrafts' depth' serial').2] at hroots
    refine .inr ⟨_, _, ?_, ?_, hroots, ?_⟩
    · rw [draftProgram, hdrafts]
      rfl
    · rw [draftProgram, hdrafts']
      rfl
    · exact sameCode_of_contents (spelled_plantProgram depth serial items drafts).built
        (spelled_plantProgram depth' serial' items' drafts').built hroots

/-- Other brackets, line breaks and comments: a definition says the same, and a conditional without an alternative is
refused in the same words. -/
theorem parse_of_rounded_code_eq_definition :
    (∃ t u, parse 1 0 "(define (f x) (cond [x \"a\"]))" = .ok t ∧
      parse 2 5 "[define ;c\n [f x] (cond (x \"a\") ;d\n)] ;e" = .ok u ∧
      t.codeRoots.map t.table.content = u.codeRoots.map u.table.content ∧ SameCode t u) ∧
    ∃ e e', parse 1 0 "(begin (if x y))" = .error e ∧ parse 1 0 ";c\n[begin\n(if x ;d\ny)]" = .error e' ∧
      e.fault.message = e'.fault.message := by
  constructor
  · have hread : ∃ tokens ∈ (tokenize "(define (f x) (cond [x \"a\"]))").toOption,
        ∃ tokens' ∈ (tokenize "[define ;c\n [f x] (cond (x \"a\") ;d\n)] ;e").toOption,
        ∃ items ∈ (Item.read tokens).toOption, ∃ items' ∈ (Item.read tokens').toOption,
        (code tokens).map Lexeme.rounded = (code tokens').map Lexeme.rounded := by decide +kernel
    have hok : (parse 1 0 "(define (f x) (cond [x \"a\"]))").isOk = true := by decide +kernel
    obtain ⟨tokens, htokens, tokens', htokens', items, hitems, items', hitems', hcode⟩ := hread
    rw [mem_toOption_iff] at htokens htokens' hitems hitems'
    rcases parse_of_rounded_code_eq htokens htokens' hitems hitems' hcode 1 0 2 5 with ⟨e, -, he, -⟩ | hparsed
    · rw [he] at hok
      cases hok
    · exact hparsed
  · have hread : ∃ tokens ∈ (tokenize "(begin (if x y))").toOption,
        ∃ tokens' ∈ (tokenize ";c\n[begin\n(if x ;d\ny)]").toOption,
        ∃ items ∈ (Item.read tokens).toOption, ∃ items' ∈ (Item.read tokens').toOption,
        (code tokens).map Lexeme.rounded = (code tokens').map Lexeme.rounded := by decide +kernel
    have hrefused : (parse 1 0 "(begin (if x y))").isOk = false := by decide +kernel
    obtain ⟨tokens, htokens, tokens', htokens', items, hitems, items', hitems', hcode⟩ := hread
    rw [mem_toOption_iff] at htokens htokens' hitems hitems'
    rcases parse_of_rounded_code_eq htokens htokens' hitems hitems' hcode 1 0 1 0 with hfailed | ⟨t, -, ht, -⟩
    · exact hfailed
    · rw [ht] at hrefused
      cases hrefused

end Scheme

end StructuralEditor
