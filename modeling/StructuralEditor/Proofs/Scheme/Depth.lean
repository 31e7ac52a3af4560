import Mathlib.Logic.Function.Iterate
import StructuralEditor.Proofs.Scheme.Nesting
import StructuralEditor.Proofs.Scheme.RoundTrip
import StructuralEditor.Tree.Description

/-!
# How deep programs are

* `Settled` : a recursion has its value after at most so many calls inside each other;
* `Within` : from here down there are at most so many levels; `settled_of_within` : a recursion that goes down the
  levels is settled by as many calls;
* `Datum.draftStep`, `Draft.plantStep`, `Table.renderStep`, `Tree.describeStep` : one call of each recursion over a
  program, with the calls inside it left open, and what it gives if they give what they should;
* `Reads.levelled` : a bracket makes at most two levels of a draft;
* `Tree.level_le_of_spelled`, `Tree.within_of_level_le` : the levels of drafts are those of the tree;
* `Shallow`, `shallow_of_parse` : the levels of a parsed tree, and the calls that it takes to make it and to tell it.
-/

namespace StructuralEditor

open Scheme (Draft Spelled)

/-! ## Recursions that are cut off -/

section Recursion

variable {α β : Type} {step : (α → β) → α → β} {f : α → β} {m n : Nat} {a : α}

/-- The recursion with the given step has the value of `f` here after at most `n` calls inside each other: whatever
answers the calls further in makes no difference. -/
def Settled (step : (α → β) → α → β) (f : α → β) (n : Nat) (a : α) : Prop := ∀ beyond, step^[n] beyond a = f a

theorem Settled.mono (h : Settled step f m a) (hle : m ≤ n) : Settled step f n a := by
  obtain ⟨k, rfl⟩ := Nat.exists_eq_add_of_le hle
  intro beyond
  rw [Function.iterate_add_apply]
  exact h _

/-- From here down there are at most so many levels, this one included. -/
inductive Within (children : α → List α) : Nat → α → Prop
  | mk {n : Nat} {a : α} (below : ∀ child ∈ children a, Within children n child) : Within children (n + 1) a

theorem Within.mono {children : α → List α} (h : Within children m a) (hle : m ≤ n) : Within children n a := by
  induction h generalizing n with
  | mk _ ih =>
    obtain ⟨k, rfl⟩ := Nat.exists_eq_add_of_le' (Nat.one_le_of_lt hle)
    exact .mk fun child hchild => ih child hchild (Nat.le_of_succ_le_succ hle)

/-- A recursion whose calls go down the levels is settled by as many calls as there are levels. -/
theorem settled_of_within {children : α → List α}
    (hstep : ∀ a recur, (∀ child ∈ children a, recur child = f child) → step recur a = f a)
    (h : Within children n a) : Settled step f n a := by
  intro beyond
  induction h with
  | mk _ ih =>
    rw [Function.iterate_succ_apply']
    exact hstep _ _ ih

end Recursion

namespace Scheme

/-! ## Drafting -/

namespace Datum

/-- One call of `draft` on a clause, with the calls inside it left open. -/
def clauseStep (recur : Datum → Except ParseError Draft) : Datum → Except ParseError Draft
  | list (test :: consequent :: others) span => do
    let test ← recur test
    let consequents ← (consequent :: others).mapM recur
    return .mk span "condition" (.clause test consequents)
  | datum => malformed .cond datum.span

/-- One call of `draft` on a binding, with the calls inside it left open. -/
def bindingStep (variety : LetVariety) (recur : Datum → Except ParseError Draft) : Datum → Except ParseError Draft
  | list [atom name nameSpan, value] span => do
    let value ← recur value
    return .mk span ("bind " ++ name) (.variableDefinition (Draft.ofAtom name nameSpan) value)
  | datum => malformed (.letForm variety) datum.span

/-- One call of `draft`, with the calls inside it left open. -/
def draftStep (recur : Datum → Except ParseError Draft) : Datum → Except ParseError Draft
  | atom text span => .ok (Draft.ofAtom text span)
  | string text span => .ok (.mk span text (.literal text "string"))
  | list [] span => .ok (.mk span "empty list" (.unknown []))
  | list (head :: rest) span =>
    match form? head with
    | none => do
      let function ← recur head
      let arguments ← rest.mapM recur
      return .mk span (applicationLabel head) (.application function arguments)
    | some .define =>
      match rest with
      | [atom name nameSpan, body] => do
        let body ← recur body
        return .mk span ("define " ++ name) (.variableDefinition (Draft.ofAtom name nameSpan) body)
      | [list (atom name nameSpan :: parameters) _, body] => do
        let parameterNames ← names .define parameters
        let body ← recur body
        return .mk span ("define " ++ name) (.functionDefinition (Draft.ofAtom name nameSpan)
          (Draft.ofNames "parameters" (parametersSpan nameSpan parameters) parameterNames) body)
      | _ => malformed .define span
    | some .defineStruct =>
      match rest with
      | [atom name nameSpan, list fields fieldsSpan] => do
        let fieldNames ← names .defineStruct fields
        return .mk span ("define-struct " ++ name)
          (.structDefinition (Draft.ofAtom name nameSpan) (Draft.ofNames "fields" fieldsSpan fieldNames))
      | _ => malformed .defineStruct span
    | some .lambda =>
      match rest with
      | [list parameters parametersSpan, body] => do
        let parameterNames ← names .lambda parameters
        let body ← recur body
        return .mk span "lambda expression"
          (.lambda (Draft.ofNames "parameters" parametersSpan parameterNames) body)
      | _ => malformed .lambda span
    | some .ifElse =>
      match rest with
      | [test, consequent, alternative] => do
        let test ← recur test
        let consequent ← recur consequent
        let alternative ← recur alternative
        return .mk span "if expression" (.ifElse test consequent alternative)
      | _ => malformed .ifElse span
    | some .cond =>
      match rest with
      | [] => malformed .cond span
      | _ => do
        let clauses ← rest.mapM (clauseStep recur)
        return .mk span ("cond expression with " ++ Text.pluralize "condition" clauses.length)
          (.conditional clauses)
    | some .begin =>
      match rest with
      | [] => malformed .begin span
      | _ => do
        let expressions ← rest.mapM recur
        return .mk span "begin expression" (.sequence "begin" expressions)
    | some (.guarded variety) =>
      match rest with
      | predicate :: first :: others => do
        let predicate ← recur predicate
        let expressions ← (first :: others).mapM recur
        return .mk span (variety.word ++ " expression") (.whenForm variety.word predicate
          (.mk (spanOfAll first others) (Text.pluralize "expression" expressions.length)
            (.sequence "begin" expressions)))
      | _ => malformed (.guarded variety) span
    | some (.letForm variety) =>
      match rest with
      | [list bindings bindingsSpan, body] => do
        let definitions ← bindings.mapM (bindingStep variety recur)
        let body ← recur body
        return .mk span (variety.word ++ " expression") (.letForm variety.word
          (.mk bindingsSpan (Text.pluralize "binding" definitions.length)
            (.sequence "bindings" definitions)) body)
      | _ => malformed (.letForm variety) span

variable {recur : Datum → Except ParseError Draft} {n : Nat} {data : List Datum}

theorem mapM_eq_draftAll (h : ∀ datum ∈ data, recur datum = datum.draft) : data.mapM recur = draftAll data := by
  induction data with
  | nil => rfl
  | cons datum data ih =>
    obtain ⟨hdatum, hdata⟩ := List.forall_mem_cons.mp h
    rw [List.mapM_cons, draftAll, hdatum, ih hdata]

theorem malformed_bind {α β : Type} (form : Form) (span : Span) (f : α → Except ParseError β) :
    (malformed form span >>= f) = malformed form span := rfl

section Step

variable (h : ∀ m < n, ∀ part : Datum, part.Fits m → recur part = part.draft)

include h

theorem mapM_clauseStep : (∀ datum ∈ data, datum.Fits n) → data.mapM (clauseStep recur) = draftClauses data := by
  induction data with
  | nil => exact fun _ => rfl
  | cons datum data ih =>
    intro hdata
    obtain ⟨hdatum, hdata⟩ := List.forall_mem_cons.mp hdata
    rw [List.mapM_cons, ih hdata]
    match datum with
    | .list (test :: consequent :: others) span =>
      obtain ⟨m, rfl, hparts⟩ := hdatum.parts
      have hdraft : ∀ part ∈ test :: consequent :: others, recur part = part.draft :=
        fun part hpart => h m m.lt_succ_self part (hparts part hpart)
      obtain ⟨htest, hconsequents⟩ := List.forall_mem_cons.mp hdraft
      rw [clauseStep, draftClauses, htest, mapM_eq_draftAll hconsequents]
      simp only [bind_assoc, pure_bind]
    | .list [_] _ | .list [] _ | .atom .. | .string .. => rfl

theorem mapM_bindingStep (variety : LetVariety) :
    (∀ datum ∈ data, datum.Fits n) → data.mapM (bindingStep variety recur) = draftBindings variety data := by
  induction data with
  | nil => exact fun _ => rfl
  | cons datum data ih =>
    intro hdata
    obtain ⟨hdatum, hdata⟩ := List.forall_mem_cons.mp hdata
    rw [List.mapM_cons, ih hdata]
    match datum with
    | .list [.atom name nameSpan, value] span =>
      obtain ⟨m, rfl, hparts⟩ := hdatum.parts
      rw [bindingStep, draftBindings, h m m.lt_succ_self value (hparts value (by simp))]
      simp only [bind_assoc, pure_bind]
    | .atom .. | .string .. | .list [] _ | .list [_] _ | .list (.string .. :: _) _ | .list (.list .. :: _) _
    | .list (_ :: _ :: _ :: _) _ => simp only [bindingStep, draftBindings, malformed_bind]

theorem draftStep_list_eq {head : Datum} {rest : List Datum} {span : Span}
    (hfits : (Datum.list (head :: rest) span).Fits n) :
    draftStep recur (.list (head :: rest) span) = (Datum.list (head :: rest) span).draft := by
  obtain ⟨m, rfl, hparts⟩ := hfits.parts
  have hdraft : ∀ part ∈ head :: rest, recur part = part.draft :=
    fun part hpart => h m m.lt_succ_self part (hparts part hpart)
  obtain ⟨hhead, hrest⟩ := List.forall_mem_cons.mp hdraft
  unfold draftStep draft
  cases hform : head.form? with
  | none => simp only [hform, hhead, mapM_eq_draftAll hrest]
  | some form =>
    cases form with
    | define =>
      rcases rest with _ | ⟨target, _ | ⟨body, _ | ⟨_, _⟩⟩⟩
      · simp only [hform]
      · simp only [hform]
      · have hbody := hrest body (by simp)
        cases target with
        | atom name nameSpan => simp only [hform, hbody]
        | string text nameSpan => simp only [hform]
        | list header headerSpan => rcases header with _ | ⟨_ | _ | _, _⟩ <;> simp only [hform, hbody]
      · simp only [hform]
    | defineStruct => rcases rest with _ | ⟨_ | _ | _, _ | ⟨_ | _ | _, _ | ⟨_, _⟩⟩⟩ <;> simp only [hform]
    | lambda =>
      rcases rest with _ | ⟨parameters, _ | ⟨body, _ | ⟨_, _⟩⟩⟩
      · simp only [hform]
      · simp only [hform]
      · have hbody := hrest body (by simp)
        cases parameters <;> simp only [hform, hbody]
      · simp only [hform]
    | ifElse =>
      rcases rest with _ | ⟨test, _ | ⟨consequent, _ | ⟨alternative, _ | ⟨_, _⟩⟩⟩⟩
      · simp only [hform]
      · simp only [hform]
      · simp only [hform]
      · simp only [hform, hrest test (by simp), hrest consequent (by simp), hrest alternative (by simp)]
      · simp only [hform]
    | cond =>
      have hclauses := mapM_clauseStep (fun k hk => h k (hk.trans m.lt_succ_self)) fun part hpart =>
        hparts part (List.mem_cons_of_mem head hpart)
      cases rest <;> simp only [hform, hclauses]
    | begin => cases rest <;> simp only [hform, mapM_eq_draftAll hrest]
    | guarded variety =>
      rcases rest with _ | ⟨predicate, _ | ⟨first, others⟩⟩
      · simp only [hform]
      · simp only [hform]
      · obtain ⟨hpredicate, hbody⟩ := List.forall_mem_cons.mp hrest
        simp only [hform, hpredicate, mapM_eq_draftAll hbody]
    | letForm variety =>
      rcases rest with _ | ⟨bound, _ | ⟨body, _ | ⟨_, _⟩⟩⟩
      · simp only [hform]
      · simp only [hform]
      · cases bound with
        | atom text span => simp only [hform]
        | string text span => simp only [hform]
        | list bindings bindingsSpan =>
          obtain ⟨k, rfl, hbindings⟩ := (hparts (.list bindings bindingsSpan) (by simp)).parts
          have hdefinitions := mapM_bindingStep (fun l hl => h l (by omega)) variety hbindings
          simp only [hform, hrest body (by simp), hdefinitions]
      · simp only [hform]

theorem draftStep_eq {datum : Datum} (hfits : datum.Fits n) : draftStep recur datum = datum.draft := by
  cases datum with
  | atom text span => rfl
  | string text span => rfl
  | list data span =>
    cases data with
    | nil => rfl
    | cons head rest => exact draftStep_list_eq h hfits

end Step

theorem settled_draft {datum : Datum} (hfits : datum.Fits n) : Settled draftStep draft (n + 1) datum := by
  induction n using Nat.strongRecOn generalizing datum with
  | ind n ih =>
    intro beyond
    rw [Function.iterate_succ_apply']
    exact draftStep_eq (fun m hm part hpart => (ih m hm hpart).mono hm beyond) hfits

end Datum

/-! ## Planting -/

namespace Draft

/-- The levels of a draft from its outermost node down are at most `n`. -/
abbrev Within (n : Nat) (d : Draft) : Prop := StructuralEditor.Within (fun d : Draft => d.kind.children) n d

/-- One call of `plant`, with the calls inside it left open. -/
def plantStep (recur : Draft → StateM Planting Nat) : Draft → StateM Planting Nat
  | mk span label kind => kind.traverse recur >>= Planting.add span label

theorem plantStep_eq {recur : Draft → StateM Planting Nat} (d : Draft)
    (h : ∀ child ∈ d.kind.children, recur child = child.plant) : plantStep recur d = d.plant := by
  obtain ⟨span, label, kind⟩ := d
  have htraverse : kind.traverse recur = kind.traverse plant := by
    funext p
    obtain ⟨hvalue, hstate⟩ := Kind.traverse_congr (R := Eq) (k := kind) (f := recur) (g := plant)
      (fun child hchild s s' hs => by rw [h child hchild, hs]; exact ⟨rfl, rfl⟩) (rfl : p = p)
    exact Prod.ext hvalue hstate
  rw [plantStep, plant_mk, htraverse]

theorem settled_plant {n : Nat} {d : Draft} (h : d.Within n) : Settled plantStep plant n d :=
  settled_of_within (fun d _ => plantStep_eq d) h

/-! ## Levels of drafts -/

variable {n : Nat}

theorem within_mk (span : Span) (label : String) {kind : Kind Draft} (h : ∀ child ∈ kind.children, child.Within n) :
    (mk span label kind).Within (n + 1) := .mk h

theorem within_leaf {d : Draft} (h : d.kind.children = []) : d.Within (n + 1) := by
  refine .mk fun child hchild => ?_
  rw [h] at hchild
  cases hchild

theorem within_ofAtom (text : String) (span : Span) : (ofAtom text span).Within (n + 1) :=
  within_leaf (children_ofAtom text span)

theorem within_ofNames (role : String) (span : Span) (names : List (String × Span)) :
    (ofNames role span names).Within (n + 2) := by
  refine within_mk _ _ fun child hchild => ?_
  rw [children_ofNames, List.map_map] at hchild
  obtain ⟨name, -, rfl⟩ := List.mem_map.mp hchild
  exact within_ofAtom name.1 name.2

end Draft

/-- Two levels of the draft for each bracket of the datum, and one for what is inside them all. -/
def Levelled (p : Datum × Draft) : Prop := ∀ n, p.1.Fits n → p.2.Within (2 * n + 1)

theorem levelled_ofAtom (text : String) (span : Span) : Levelled (.atom text span, Draft.ofAtom text span) :=
  fun _ _ => Draft.within_ofAtom text span

theorem levelled_ofNames (role : String) (span listSpan : Span) (data : List Datum) (names : List (String × Span)) :
    Levelled (.list data listSpan, Draft.ofNames role span names) := by
  intro n hfits
  obtain ⟨m, rfl, -⟩ := hfits.parts
  exact Draft.within_ofNames role span names

/-- A node whose children are the drafts of parts of a list is one level above them. -/
theorem within_of_parts {data : List Datum} {listSpan : Span} {n : Nat} (hfits : (Datum.list data listSpan).Fits n)
    {ps : List (Datum × Draft)} (hps : ∀ p ∈ ps, p.1 ∈ data ∧ Levelled p) {kind : Kind Draft}
    (hchildren : kind.children = ps.map Prod.snd) (span : Span) (label : String) :
    (Draft.mk span label kind).Within (2 * n) := by
  obtain ⟨m, rfl, hparts⟩ := hfits.parts
  refine Draft.within_mk span label fun child hchild => ?_
  rw [hchildren] at hchild
  obtain ⟨p, hp, rfl⟩ := List.mem_map.mp hchild
  obtain ⟨hmem, hlevelled⟩ := hps p hp
  exact hlevelled m (hparts p.1 hmem)

theorem levelled_of_parts {data : List Datum} {listSpan : Span} (ps : List (Datum × Draft))
    (hps : ∀ p ∈ ps, p.1 ∈ data ∧ Levelled p) {kind : Kind Draft} (hchildren : kind.children = ps.map Prod.snd)
    (span : Span) (label : String) : Levelled (.list data listSpan, .mk span label kind) :=
  fun n hfits => (within_of_parts hfits hps hchildren span label).mono (Nat.le_succ (2 * n))

theorem levelled_of_head {p : Datum × Draft} {ps : List (Datum × Draft)} {listSpan : Span} (hp : Levelled p)
    (hps : ∀ q ∈ ps, Levelled q) {kind : Kind Draft} (hchildren : kind.children = p.2 :: ps.map Prod.snd)
    (span : Span) (label : String) : Levelled (.list (p.1 :: ps.map Prod.fst) listSpan, .mk span label kind) := by
  have hall : ∀ q ∈ p :: ps, Levelled q := List.forall_mem_cons.mpr ⟨hp, hps⟩
  refine levelled_of_parts (p :: ps) (fun q hq => ⟨?_, hall q hq⟩) hchildren span label
  exact List.mem_map_of_mem (f := Prod.fst) hq

theorem Reads.levelled {slot : Slot} {datum : Datum} {d : Draft} (h : Reads slot datum d) : Levelled (datum, d) := by
  induction h with
  | atom text span => exact levelled_ofAtom text span
  | string text span => exact fun _ _ => Draft.within_leaf rfl
  | emptyList span => exact fun _ _ => Draft.within_leaf rfl
  | @application head function arguments span _ _ _ ihhead ih =>
    refine levelled_of_head (p := (head, function)) ihhead ih ?_ _ _
    simp [Kind.children, Kind.fields, Field.nodes]
  | @variableDefinition head body value name nameSpan span _ _ ih =>
    refine levelled_of_parts [(.atom name nameSpan, Draft.ofAtom name nameSpan), (body, value)] ?_ rfl _ _
    simpa using ⟨levelled_ofAtom name nameSpan, ih⟩
  | @functionDefinition head body value name nameSpan headerSpan span parameters _ _ ih =>
    generalize hheader : Datum.list (.atom name nameSpan :: parameters.map Datum.ofName) headerSpan = header
    have hname : Levelled (header, Draft.ofAtom name nameSpan) := fun _ _ => Draft.within_ofAtom name nameSpan
    have hparameters := levelled_ofNames "parameters"
      (Datum.parametersSpan nameSpan (parameters.map Datum.ofName)) headerSpan
      (.atom name nameSpan :: parameters.map Datum.ofName) parameters
    rw [hheader] at hparameters
    refine levelled_of_parts [(header, Draft.ofAtom name nameSpan), (header, Draft.ofNames "parameters"
      (Datum.parametersSpan nameSpan (parameters.map Datum.ofName)) parameters), (body, value)] ?_ rfl _ _
    simpa using ⟨hname, hparameters, ih⟩
  | @structDefinition head name nameSpan fieldsSpan span fields _ =>
    refine levelled_of_parts [(.atom name nameSpan, Draft.ofAtom name nameSpan),
      (.list (fields.map Datum.ofName) fieldsSpan, Draft.ofNames "fields" fieldsSpan fields)] ?_ rfl _ _
    simpa using ⟨levelled_ofAtom name nameSpan, levelled_ofNames _ _ _ _ _⟩
  | @lambda head body value parametersSpan span parameters _ _ ih =>
    refine levelled_of_parts [(.list (parameters.map Datum.ofName) parametersSpan,
      Draft.ofNames "parameters" parametersSpan parameters), (body, value)] ?_ rfl _ _
    simpa using ⟨levelled_ofNames _ _ _ _ _, ih⟩
  | @ifElse head test consequent alternative test' consequent' alternative' span _ _ _ _ ihtest ihconsequent
      ihalternative =>
    refine levelled_of_parts [(test, test'), (consequent, consequent'), (alternative, alternative')] ?_ rfl _ _
    simpa using ⟨ihtest, ihconsequent, ihalternative⟩
  | @conditional head clauses span _ _ _ ih =>
    refine levelled_of_parts clauses (fun p hp => ⟨?_, ih p hp⟩) (List.append_nil _) _ _
    exact List.mem_cons_of_mem _ (List.mem_map_of_mem hp)
  | @clause test test' consequents span _ _ _ ihtest ih =>
    refine levelled_of_head (p := (test, test')) ihtest ih ?_ _ _
    simp [Kind.children, Kind.fields, Field.nodes]
  | @begin head expressions span _ _ _ ih =>
    refine levelled_of_parts expressions (fun p hp => ⟨?_, ih p hp⟩) (List.append_nil _) _ _
    exact List.mem_cons_of_mem _ (List.mem_map_of_mem hp)
  | @guarded variety head predicate predicate' first others span _ _ _ ihpredicate ih =>
    intro n hfits
    have hbody : ∀ p ∈ first :: others, p.1 ∈ head :: predicate :: first.1 :: others.map Prod.fst ∧ Levelled p := by
      refine fun p hp => ⟨?_, ih p hp⟩
      exact List.mem_cons_of_mem _ (List.mem_cons_of_mem _ (List.mem_map_of_mem (f := Prod.fst) hp))
    have hsequence := within_of_parts hfits hbody
      (show (Kind.sequence "begin" (first.2 :: others.map Prod.snd)).children = _ from List.append_nil _)
      (Datum.spanOfAll first.1 (others.map Prod.fst)) (Text.pluralize "expression" (others.length + 1))
    obtain ⟨m, rfl, hparts⟩ := hfits.parts
    have hpredicate : predicate'.Within (2 * (m + 1)) :=
      (ihpredicate m (hparts predicate (by simp))).mono (Nat.le_succ _)
    refine Draft.within_mk _ _ ?_
    show ∀ child ∈ [predicate', Draft.mk _ _ _], child.Within (2 * (m + 1))
    simpa using ⟨hpredicate, hsequence⟩
  | @letForm variety head body body' bindings bindingsSpan span _ _ _ ih ihbody =>
    have hbindings : Levelled (.list (bindings.map Prod.fst) bindingsSpan, .mk bindingsSpan
        (Text.pluralize "binding" bindings.length) (.sequence "bindings" (bindings.map Prod.snd))) :=
      levelled_of_parts bindings (fun p hp => ⟨List.mem_map_of_mem hp, ih p hp⟩) (List.append_nil _) _ _
    refine levelled_of_parts [(.list (bindings.map Prod.fst) bindingsSpan, .mk bindingsSpan
      (Text.pluralize "binding" bindings.length) (.sequence "bindings" (bindings.map Prod.snd))), (body, body')]
      ?_ rfl _ _
    simpa using ⟨hbindings, ihbody⟩
  | @binding value value' name nameSpan span _ ih =>
    refine levelled_of_parts [(.atom name nameSpan, Draft.ofAtom name nameSpan), (value, value')] ?_ rfl _ _
    simpa using ⟨levelled_ofAtom name nameSpan, ih⟩

end Scheme

/-! ## Rendering -/

namespace Table

variable {t : Table}

/-- One call of the rendering of a node, with the calls for its children left open. -/
def renderStep (t : Table) (recur : Nat → Rendering) (id : Nat) : Rendering :=
  match t.get? id with
  | some node => (node.kind.map recur).rendering
  | none => (default : Content).rendering

theorem renderStep_eq (ho : t.Ordered) {recur : Nat → Rendering} (id : Nat)
    (h : ∀ child ∈ t.children id, recur child = (t.content child).rendering) :
    t.renderStep recur id = (t.content id).rendering := by
  unfold renderStep
  cases hnode : t.get? id with
  | none => rw [content, hnode]
  | some node =>
    rw [children, hnode] at h
    rw [content_of_get? ho hnode, Content.rendering_mk, Kind.map_map]
    exact congrArg Kind.rendering (Kind.map_congr h)

end Table

/-! ## Description -/

abbrev Voice.describing {α : Type} (voice : Voice α) (describe : α → String) : Voice α :=
  { voice with describe := describe }

namespace Kind

variable {α : Type} (voice : Voice α) {f g : α → String}

theorem spoken_congr {k : Kind α} (h : ∀ child ∈ k.children, f child = g child) :
    k.spoken (voice.describing f) = k.spoken (voice.describing g) := by
  have hmap : ∀ l : List α, (∀ child ∈ l, child ∈ k.children) → l.map f = l.map g :=
    fun l hl => List.map_congr_left fun child hchild => h child (hl child hchild)
  cases k <;> simp +contextual [spoken, h, hmap, children, fields, Field.nodes]

theorem spokenApplication_congr (head : α) {arguments : List α} (h : ∀ child ∈ arguments, f child = g child) :
    spokenApplication (voice.describing f) head arguments = spokenApplication (voice.describing g) head arguments := by
  simp only [spokenApplication, List.map_congr_left h]

end Kind

namespace Tree

variable {t : Tree} {n N : Nat}

/-- What a description says about the children of a node, apart from their descriptions. -/
def voice (t : Tree) : Voice Nat where
  describe := fun _ => ""
  source := t.source
  label := t.label
  isLeaf := fun child => (t.node? child).any (·.kind.isLeaf)
  count := fun child => (t.children child).length

/-- One call of `describe`, with the calls for the children left open. -/
def describeStep (t : Tree) (level : Nat) (recur : Nat → String) (id : Nat) : String :=
  match t.node? id with
  | none => ""
  | some node =>
    match node.kind, decide ((t.place id).level = level) with
    | .application head arguments, true => Kind.spokenApplication (t.voice.describing recur) head arguments
    | kind, _ =>
      if level + t.depth ≤ (t.place id).level then node.label
      else (kind.spoken (t.voice.describing recur)).getD node.label

theorem describe_eq_describeStep (level id : Nat) : t.describe level id =
    t.describeStep level (fun child => if child < id then t.describe level child else "") id := by
  rw [describe]
  rfl

theorem describeStep_congr (level id : Nat) {f g : Nat → String} (h : ∀ child ∈ t.children id, f child = g child) :
    t.describeStep level f id = t.describeStep level g id := by
  unfold describeStep
  cases hnode : t.node? id with
  | none => rfl
  | some node =>
    rw [children_of_node? hnode] at h
    have hspoken := Kind.spoken_congr t.voice h
    simp only
    split
    · next head arguments hkind _ =>
      have harguments : ∀ child ∈ arguments, f child = g child := by
        refine fun child hchild => h child ?_
        simp [hkind, Kind.children, Kind.fields, Field.nodes, hchild]
      exact Kind.spokenApplication_congr t.voice head harguments
    · rw [hspoken]

theorem describeStep_eq (ho : t.table.Ordered) {level : Nat} {recur : Nat → String} (id : Nat)
    (h : ∀ child ∈ t.children id, recur child = t.describe level child) :
    t.describeStep level recur id = t.describe level id := by
  rw [describe_eq_describeStep]
  refine describeStep_congr level id fun child hchild => ?_
  rw [if_pos (ho id child hchild), h child hchild]

/-! ## Levels of trees -/

theorem level_root (hb : t.Built) (hu : t.Unshared) {root : Nat} (hroot : root ∈ t.roots) :
    (t.place root).level = 1 := by
  have hlaid := laidOut_of_built hb hu
  have hmem := hb.root_mem hroot
  obtain ⟨index, -, hpath, -⟩ := hlaid.among root hmem
  rw [(hlaid.parent_none root hmem).mpr hroot] at hpath
  rw [hlaid.level root hmem, hpath]
  rfl

theorem level_le_of_spelled {drafts : List Draft} (h : Spelled t drafts) (hdrafts : ∀ d ∈ drafts, d.Within N) :
    ∀ id ∈ t.nodes, (t.place id).level ≤ N := by
  -- Each step down from the roots takes one of the levels that are left.
  have hleft : ∀ id ∈ t.nodes, ∃ d k, t.table.Spells id d ∧ d.Within k ∧ (t.place id).level + k ≤ N + 1 := by
    refine h.built.nodes_induction (fun root hroot => ?_) fun id hid ih child hchild => ?_
    · obtain ⟨d, hd, hspells⟩ := h.exists_draft hroot
      refine ⟨d, N, hspells, hdrafts d hd, ?_⟩
      rw [level_root h.built h.unshared hroot, Nat.add_comm]
    · obtain ⟨d, k, hspells, hwithin, hle⟩ := ih
      cases hwithin with
      | @mk k _ below =>
        rw [level_child h.built h.unshared hid hchild]
        obtain ⟨ps, hfst, hsnd, hbelow⟩ := hspells.exists_children
        rw [show t.children id = _ from hsnd] at hchild
        obtain ⟨p, hp, rfl⟩ := List.mem_map.mp hchild
        refine ⟨p.1, k, hbelow p hp, below p.1 ?_, by omega⟩
        show p.1 ∈ d.kind.children
        rw [hfst]
        exact List.mem_map_of_mem hp
  intro id hid
  obtain ⟨d, k, -, hwithin, hle⟩ := hleft id hid
  cases hwithin with
  | mk _ => omega

theorem within_of_level_le (hb : t.Built) (hu : t.Unshared) (h : ∀ id ∈ t.nodes, (t.place id).level ≤ N) {id : Nat}
    (hid : id ∈ t.nodes) (hn : N < (t.place id).level + n) : Within t.children n id := by
  induction n generalizing id with
  | zero => exact absurd (h id hid) (Nat.not_le_of_lt hn)
  | succ n ih =>
    refine .mk fun child hchild => ih (hb.child_mem hid hchild) ?_
    rw [level_child hb hu hid hchild]
    omega

end Tree

namespace Scheme

/-- The levels of a tree that is parsed out of the data are at most `N`, and so are the calls inside each other that
it takes to draft and plant a datum and to render and describe a node, from the level of the node on. -/
structure Shallow (N : Nat) (data : List Datum) (t : Tree) : Prop where
  level_le : ∀ id ∈ t.nodes, (t.place id).level ≤ N
  drafting : ∀ datum ∈ data, Settled Datum.draftStep Datum.draft N datum
  planting : ∀ datum ∈ data, ∀ d, datum.draft = .ok d → Settled Draft.plantStep Draft.plant N d
  rendering : ∀ id ∈ t.nodes, ∀ n, N < (t.place id).level + n →
    ∀ beyond, (t.table.renderStep^[n] beyond id).text = t.source id
  description : ∀ id ∈ t.nodes, ∀ n, N < (t.place id).level + n →
    ∀ level, Settled (t.describeStep level) (t.describe level) n id

/-- The levels that a parsed tree may have: two for each bracket, and one for what is inside them all. -/
def maxLevel : Nat := 2 * maxNesting + 1

example : maxLevel = 1025 := rfl

/-- Data nested at most `n` deep make a tree of at most `2 * n + 1` levels. -/
theorem shallow_plantProgram {n : Nat} {items : List Item} {drafts : List Draft} (depth serial : Nat)
    (hfits : ∀ datum ∈ Item.data items, datum.Fits n) (hdrafts : draftProgram items = .ok drafts) :
    Shallow (2 * n + 1) (Item.data items) (plantProgram depth serial items drafts) := by
  have hspelled := spelled_plantProgram depth serial items drafts
  have hwithin : ∀ d ∈ drafts ++ (CommentPlan.ofItems items).2.toList.map Draft.ofComment, d.Within (2 * n + 1) := by
    obtain ⟨ps, hdata, rfl, hps⟩ := Datum.reads_of_draftAll _ hdrafts
    refine List.forall_mem_append.mpr ⟨List.forall_mem_map.mpr fun p hp => ?_, List.forall_mem_map.mpr fun c _ => ?_⟩
    · exact (hps p hp).levelled n (hfits p.1 (hdata ▸ List.mem_map_of_mem hp))
    · exact Draft.within_leaf rfl
  have hlevels := Tree.level_le_of_spelled hspelled hwithin
  refine ⟨hlevels, fun datum hdatum => ?_, fun datum hdatum d hd => ?_, fun id hid k hk beyond => ?_,
    fun id hid k hk level => ?_⟩
  · exact (Datum.settled_draft (hfits datum hdatum)).mono (by omega)
  · exact Draft.settled_plant ((Datum.reads_of_draft datum hd).levelled n (hfits datum hdatum))
  · have hbelow := Tree.within_of_level_le hspelled.built hspelled.unshared hlevels hid hk
    have hrendering := settled_of_within (fun id _ => Table.renderStep_eq hspelled.ordered id) hbelow beyond
    rw [Tree.source, Table.source, if_pos (Table.exists_get?_iff_lt.mp (hspelled.built.exists_node? hid)), hrendering]
    rfl
  · have hbelow := Tree.within_of_level_le hspelled.built hspelled.unshared hlevels hid hk
    exact settled_of_within (fun id _ => Tree.describeStep_eq hspelled.ordered id) hbelow

/-- Each bracket of a program makes at most two levels of its tree, and no program has brackets nested deeper than
`maxNesting`. -/
theorem shallow_of_parse {depth serial : Nat} {source : String} {t : Tree} (h : parse depth serial source = .ok t) :
    ∃ tokens items, Token.tokenize source = .ok tokens ∧ Item.read tokens = .ok items ∧
      Shallow maxLevel (Item.data items) t ∧
      ∀ n, Item.Nested n tokens items → Shallow (2 * n + 1) (Item.data items) t := by
  obtain ⟨tokens, items, drafts, htokens, hitems, hdrafts, rfl⟩ := parse_eq_ok_iff.mp h
  have hshallow : ∀ n, Item.Nested n tokens items →
      Shallow (2 * n + 1) (Item.data items) (plantProgram depth serial items drafts) := fun n hnested =>
    shallow_plantProgram depth serial (fits_of_nested hnested (Token.valid_of_scan htokens)) hdrafts
  exact ⟨tokens, items, htokens, hitems, hshallow maxNesting (Item.read_eq_ok_iff.mp hitems), hshallow⟩

theorem shallow_of_parse_guarded : ∃ t, parse 1 0 "(when a (when b c))" = .ok t ∧
    (∃ id ∈ t.nodes, (t.place id).level = 2 * 2 + 1) ∧
    ∃ tokens items, Token.tokenize "(when a (when b c))" = .ok tokens ∧ Item.read tokens = .ok items ∧
      Shallow maxLevel (Item.data items) t ∧
      ∀ n, Item.Nested n tokens items → Shallow (2 * n + 1) (Item.data items) t := by
  have hok : ∃ t ∈ (parse 1 0 "(when a (when b c))").toOption, ∃ id ∈ t.nodes, (t.place id).level = 2 * 2 + 1 := by
    decide +kernel
  obtain ⟨t, ht, hdeep⟩ := hok
  rw [mem_toOption_iff] at ht
  exact ⟨t, ht, hdeep, shallow_of_parse ht⟩

end Scheme

end StructuralEditor
