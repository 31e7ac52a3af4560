import StructuralEditor.Content

/-!
# Traversals with a state

Working through the children of a node with a state visits them from the first to the last.

* `Trail` : a list of members worked through one after the other, with what they gave;
* `Kind.InTurn` : the children are worked through in order, and what each gives stands in its place;
* `Kind.traverse_trail` : so it is with every kind of node;
* `Kind.traverse_congr` : traversals from related states give the same and end in related states.
-/

namespace StructuralEditor

variable {σ α β : Type}

/-- From one state to another by working through the members with `f`, each with what it gave. -/
inductive Trail (f : α → StateM σ β) : σ → List (α × β) → σ → Prop
  | nil (s : σ) : Trail f s [] s
  | cons {a : α} {s s' : σ} {rest : List (α × β)} (h : Trail f (f a s).2 rest s') :
    Trail f s ((a, (f a s).1) :: rest) s'

namespace Trail

variable {f : α → StateM σ β} {s s' s'' : σ} {ps qs : List (α × β)}

theorem append (h : Trail f s ps s') (h' : Trail f s' qs s'') : Trail f s (ps ++ qs) s'' := by
  induction h with
  | nil s => exact h'
  | cons _ ih => exact .cons (ih h')

theorem single (f : α → StateM σ β) (a : α) (s : σ) : Trail f s [(a, (f a s).1)] (f a s).2 :=
  .cons (.nil _)

/-- What every member keeps, from any state in which it holds, the whole list keeps. -/
theorem keeps {P : σ → Prop} (h : Trail f s ps s') (hP : ∀ p ∈ ps, ∀ s, P s → P (f p.1 s).2) (hs : P s) :
    P s' := by
  induction h with
  | nil s => exact hs
  | @cons a s s' rest _ ih =>
    obtain ⟨ha, hrest⟩ := List.forall_mem_cons.mp hP
    exact ih hrest (ha s hs)

/-- Two trails over the same members that keep states related give the same. -/
theorem congr {τ : Type} {g : α → StateM τ β} {R : σ → τ → Prop}
    {t t' : τ} (hps : Trail f s ps s') (hqs : Trail g t qs t')
    (hfst : ps.map Prod.fst = qs.map Prod.fst)
    (h : ∀ p ∈ ps, ∀ s t, R s t → (f p.1 s).1 = (g p.1 t).1 ∧ R (f p.1 s).2 (g p.1 t).2) (hst : R s t) :
    ps = qs ∧ R s' t' := by
  induction hps generalizing t qs with
  | nil s =>
    cases hqs with
    | nil t => exact ⟨rfl, hst⟩
    | cons _ => cases hfst
  | @cons a s s' rest _ ih =>
    cases hqs with
    | nil t => cases hfst
    | @cons b _ _ rest' htrail =>
      obtain ⟨rfl, hrest⟩ := List.cons.inj hfst
      obtain ⟨ha, hmore⟩ := List.forall_mem_cons.mp h
      obtain ⟨hvalue, hstate⟩ := ha s t hst
      obtain ⟨rfl, hend⟩ := ih htrail hrest hmore hstate
      exact ⟨by rw [hvalue], hend⟩

end Trail

namespace Field

theorem nodes_map (f : α → β) (x : Field α) : (x.map f).nodes = x.nodes.map f := by
  cases x with
  | one child => cases child <;> rfl
  | many children => rfl

theorem ext_nodes {φ : α → β} {x y : Field α} (h : x.map φ = y.map φ) (hnodes : x.nodes = y.nodes) :
    x = y := by
  cases x with
  | one a =>
    cases y with
    | one b => cases a <;> cases b <;> simp_all [Field.map, Field.nodes]
    | many bs => cases h
  | many as =>
    cases y with
    | one b => cases h
    | many bs => exact congrArg Field.many hnodes

end Field

theorem mapM_trail (f : α → StateM σ β) (as : List α) (s : σ) :
    ∃ ps : List (α × β), ps.map Prod.fst = as ∧ (as.mapM f s).1 = ps.map Prod.snd ∧
      Trail f s ps (as.mapM f s).2 := by
  induction as generalizing s with
  | nil => exact ⟨[], rfl, rfl, .nil s⟩
  | cons a as ih =>
    obtain ⟨ps, hfst, hsnd, htrail⟩ := ih (f a s).2
    rw [List.mapM_cons]
    refine ⟨(a, (f a s).1) :: ps, ?_, ?_, .cons htrail⟩
    · rw [List.map_cons, hfst]
    · rw [List.map_cons, ← hsnd]
      rfl

theorem mapM_option_trail (f : α → StateM σ β) (o : Option α) (s : σ) :
    ∃ p : Option (α × β), p.map Prod.fst = o ∧ (o.mapM f s).1 = p.map Prod.snd ∧
      Trail f s p.toList (o.mapM f s).2 := by
  cases o with
  | none => exact ⟨none, rfl, rfl, .nil s⟩
  | some a => exact ⟨some (a, (f a s).1), rfl, rfl, Trail.single f a s⟩

namespace Kind

/-- Traversed with `f`, the children are worked through in order, and what each gives stands in its place. -/
def InTurn (f : α → StateM σ β) (k : Kind α) : Prop :=
  ∀ s, ∃ m : Kind (α × β), m.map Prod.fst = k ∧ (k.traverse f s).1 = m.map Prod.snd ∧
    Trail f s m.children (k.traverse f s).2

/-! Forms of the same shape are traversed in the same way, whatever their name. -/

section Shapes

variable (f : α → StateM σ β)

theorem inTurn_pair (form : ∀ γ : Type, γ → γ → Kind γ) (a b : α)
    (hmap : ∀ {γ δ : Type} (φ : γ → δ) (x y : γ), (form γ x y).map φ = form δ (φ x) (φ y))
    (hchildren : ∀ {γ : Type} (x y : γ), (form γ x y).children = [x, y])
    (htraverse : ∀ s, (form α a b).traverse f s = (form β (f a s).1 (f b (f a s).2).1, (f b (f a s).2).2)) :
    InTurn f (form α a b) := by
  intro s
  refine ⟨form _ (a, (f a s).1) (b, (f b (f a s).2).1), hmap .., ?_, ?_⟩
  · rw [htraverse, hmap]
  · rw [htraverse, hchildren]
    exact .cons (Trail.single f b _)

theorem inTurn_triple (form : ∀ γ : Type, γ → γ → γ → Kind γ) (a b c : α)
    (hmap : ∀ {γ δ : Type} (φ : γ → δ) (x y z : γ), (form γ x y z).map φ = form δ (φ x) (φ y) (φ z))
    (hchildren : ∀ {γ : Type} (x y z : γ), (form γ x y z).children = [x, y, z])
    (htraverse : ∀ s, (form α a b c).traverse f s =
      (form β (f a s).1 (f b (f a s).2).1 (f c (f b (f a s).2).2).1, (f c (f b (f a s).2).2).2)) :
    InTurn f (form α a b c) := by
  intro s
  refine ⟨form _ (a, (f a s).1) (b, (f b (f a s).2).1) (c, (f c (f b (f a s).2).2).1), hmap .., ?_, ?_⟩
  · rw [htraverse, hmap]
  · rw [htraverse, hchildren]
    exact .cons (.cons (Trail.single f c _))

theorem inTurn_list (form : ∀ γ : Type, List γ → Kind γ) (as : List α)
    (hmap : ∀ {γ δ : Type} (φ : γ → δ) (xs : List γ), (form γ xs).map φ = form δ (xs.map φ))
    (hchildren : ∀ {γ : Type} (xs : List γ), (form γ xs).children = xs)
    (htraverse : ∀ s, (form α as).traverse f s = (form β (as.mapM f s).1, (as.mapM f s).2)) :
    InTurn f (form α as) := by
  intro s
  obtain ⟨ps, hfst, hsnd, htrail⟩ := mapM_trail f as s
  refine ⟨form _ ps, ?_, ?_, ?_⟩
  · rw [hmap, hfst]
  · rw [htraverse, hmap, hsnd]
  · rw [htraverse, hchildren]
    exact htrail

theorem inTurn_cons (form : ∀ γ : Type, γ → List γ → Kind γ) (a : α) (as : List α)
    (hmap : ∀ {γ δ : Type} (φ : γ → δ) (x : γ) (xs : List γ), (form γ x xs).map φ = form δ (φ x) (xs.map φ))
    (hchildren : ∀ {γ : Type} (x : γ) (xs : List γ), (form γ x xs).children = x :: xs)
    (htraverse : ∀ s, (form α a as).traverse f s =
      (form β (f a s).1 (as.mapM f (f a s).2).1, (as.mapM f (f a s).2).2)) :
    InTurn f (form α a as) := by
  intro s
  obtain ⟨ps, hfst, hsnd, htrail⟩ := mapM_trail f as (f a s).2
  refine ⟨form _ (a, (f a s).1) ps, ?_, ?_, ?_⟩
  · rw [hmap, hfst]
  · rw [htraverse, hmap, hsnd]
  · rw [htraverse, hchildren]
    exact .cons htrail

theorem inTurn_function (name : String) (arguments : List α) (typing : Option α) (doc : String) (body : α) :
    InTurn f (.function name arguments typing doc body) := by
  intro s
  obtain ⟨ps, hfst, hsnd, htrail⟩ := mapM_trail f arguments s
  obtain ⟨p, hfst', hsnd', htrail'⟩ := mapM_option_trail f typing (arguments.mapM f s).2
  refine ⟨.function name ps p doc (body, (f body (typing.mapM f (arguments.mapM f s).2).2).1), ?_, ?_, ?_⟩
  · simp only [map, hfst, hfst']
  · simp only [map, ← hsnd, ← hsnd']
    rfl
  · exact htrail.append (htrail'.append (Trail.single f body _))

end Shapes

/-- A traversal works through the children in order, and puts what each gives in its place. -/
theorem traverse_trail (f : α → StateM σ β) (k : Kind α) : InTurn f k := by
  cases k with
  | literal value type => exact fun s => ⟨.literal value type, rfl, rfl, .nil s⟩
  | comment text => exact fun s => ⟨.comment text, rfl, rfl, .nil s⟩
  | blank value type => exact fun s => ⟨.blank value type, rfl, rfl, .nil s⟩
  | anyType => exact fun s => ⟨.anyType, rfl, rfl, .nil s⟩
  | bind name typing => exact fun s => ⟨.bind name (typing, (f typing s).1), rfl, rfl, Trail.single f typing s⟩
  | structDefinition name fields =>
    exact inTurn_pair f @structDefinition name fields (fun _ _ _ => rfl) (fun _ _ => rfl) fun _ => rfl
  | variableDefinition name body =>
    exact inTurn_pair f @variableDefinition name body (fun _ _ _ => rfl) (fun _ _ => rfl) fun _ => rfl
  | lambda parameters body =>
    exact inTurn_pair f @lambda parameters body (fun _ _ _ => rfl) (fun _ _ => rfl) fun _ => rfl
  | letForm form bindings body =>
    exact inTurn_pair f (fun _ => letForm form) bindings body (fun _ _ _ => rfl) (fun _ _ => rfl) fun _ => rfl
  | whenForm form predicate body =>
    exact inTurn_pair f (fun _ => whenForm form) predicate body (fun _ _ _ => rfl) (fun _ _ => rfl) fun _ => rfl
  | binary operator left right =>
    exact inTurn_pair f (fun _ => binary operator) left right (fun _ _ _ => rfl) (fun _ _ => rfl) fun _ => rfl
  | declaration target value =>
    exact inTurn_pair f @declaration target value (fun _ _ _ => rfl) (fun _ _ => rfl) fun _ => rfl
  | assignment target value =>
    exact inTurn_pair f @assignment target value (fun _ _ _ => rfl) (fun _ _ => rfl) fun _ => rfl
  | letBinding target value =>
    exact inTurn_pair f @letBinding target value (fun _ _ _ => rfl) (fun _ _ => rfl) fun _ => rfl
  | functionDefinition name parameters body =>
    exact inTurn_triple f @functionDefinition name parameters body (fun _ _ _ _ => rfl) (fun _ _ _ => rfl) fun _ => rfl
  | ifElse test consequent alternative =>
    exact inTurn_triple f @ifElse test consequent alternative (fun _ _ _ _ => rfl) (fun _ _ _ => rfl) fun _ => rfl
  | unknown elements =>
    exact inTurn_list f @unknown elements (fun _ _ => rfl) (fun xs => List.append_nil xs) fun _ => rfl
  | identifiers role names =>
    exact inTurn_list f (fun _ => identifiers role) names (fun _ _ => rfl) (fun xs => List.append_nil xs) fun _ => rfl
  | conditional clauses =>
    exact inTurn_list f @conditional clauses (fun _ _ => rfl) (fun xs => List.append_nil xs) fun _ => rfl
  | sequence name expressions =>
    exact inTurn_list f (fun _ => sequence name) expressions (fun _ _ => rfl) (fun xs => List.append_nil xs)
      fun _ => rfl
  | block name expressions =>
    exact inTurn_list f (fun _ => block name) expressions (fun _ _ => rfl) (fun xs => List.append_nil xs) fun _ => rfl
  | application head arguments =>
    exact inTurn_cons f @application head arguments (fun _ _ _ => rfl)
      (fun x xs => congrArg (x :: ·) (List.append_nil xs)) fun _ => rfl
  | clause test consequents =>
    exact inTurn_cons f @clause test consequents (fun _ _ _ => rfl)
      (fun x xs => congrArg (x :: ·) (List.append_nil xs)) fun _ => rfl
  | function name arguments typing doc body => exact inTurn_function f name arguments typing doc body

/-! ## Related states -/

theorem fields_ext (φ : α → β) {fs gs : List (Field α)} (h : fs.map (Field.map φ) = gs.map (Field.map φ))
    (hnodes : fs.flatMap Field.nodes = gs.flatMap Field.nodes) : fs = gs := by
  induction fs generalizing gs with
  | nil => exact (List.map_eq_nil_iff.mp h.symm).symm
  | cons x fs ih =>
    cases gs with
    | nil => cases h
    | cons y gs =>
      obtain ⟨hxy, hrest⟩ := List.cons.inj h
      have hlength : x.nodes.length = y.nodes.length := by
        have := congrArg (fun field => field.nodes.length) hxy
        simpa [Field.nodes_map] using this
      obtain ⟨hx, hnodes⟩ := List.append_inj hnodes hlength
      rw [Field.ext_nodes hxy hx, ih hrest hnodes]

theorem ext_children {φ : α → β} {k l : Kind α} (h : k.map φ = l.map φ) (hchildren : k.children = l.children) :
    k = l := by
  refine ext_parts ?_ ?_ (fields_ext φ ?_ hchildren)
  · rw [← tag_map φ k, h, tag_map]
  · rw [← scalars_map φ k, h, scalars_map]
  · rw [← fields_map, h, fields_map]

/-- Traversals from related states give the same and end in related states, if this is so for each child. -/
theorem traverse_congr {τ : Type} {f : α → StateM σ β} {g : α → StateM τ β} {R : σ → τ → Prop} {k : Kind α}
    (h : ∀ a ∈ k.children, ∀ s t, R s t → (f a s).1 = (g a t).1 ∧ R (f a s).2 (g a t).2) {s : σ} {t : τ}
    (hst : R s t) :
    (k.traverse f s).1 = (k.traverse g t).1 ∧ R (k.traverse f s).2 (k.traverse g t).2 := by
  obtain ⟨m, hm, hvalue, htrail⟩ := traverse_trail f k s
  obtain ⟨m', hm', hvalue', htrail'⟩ := traverse_trail g k t
  have hfst : m.children.map Prod.fst = m'.children.map Prod.fst := by
    rw [← children_map, ← children_map, hm, hm']
  have hmem : ∀ p ∈ m.children, p.1 ∈ k.children := by
    intro p hp
    rw [← hm, children_map]
    exact List.mem_map_of_mem hp
  obtain ⟨hchildren, hend⟩ := htrail.congr htrail' hfst (fun p hp => h p.1 (hmem p hp)) hst
  rw [hvalue, hvalue', ext_children (hm.trans hm'.symm) hchildren]
  exact ⟨rfl, hend⟩

end Kind

end StructuralEditor
