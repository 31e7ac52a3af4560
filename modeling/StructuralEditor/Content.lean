import StructuralEditor.Kind

/-!
# Content

* `Content` : what a subtree says, without places, labels, identities and comments;
* `Content.fold` : the value of a content computed from its parts up;
* equality of contents is decidable: form, scalar texts and fields decide it.
-/

namespace StructuralEditor

/-- What a subtree says: the form of every node, its scalar texts and its children. -/
inductive Content where
  | mk (kind : Kind Content)

namespace Content

def kind : Content → Kind Content
  | mk kind => kind

instance : Inhabited Content := ⟨mk .anyType⟩

/-- The value of a content when `f` makes the value of a node from those of its children. -/
def fold {β : Type} (f : Kind β → β) : Content → β
  | mk kind => f (kind.attach.map fun child => fold f child.1)
termination_by content => sizeOf content
decreasing_by
  have := Kind.sizeOf_lt_of_mem child.2
  simp only [Content.mk.sizeOf_spec]
  omega

@[simp] theorem fold_mk {β : Type} (f : Kind β → β) (kind : Kind Content) :
    fold f (mk kind) = f (kind.map (fold f)) := by
  rw [fold, Kind.map_attach]

/-! ## Equality -/

/-- Equality of lists, given equality of the members of the first. -/
def decideList {α : Type} :
    (as bs : List α) → (∀ a ∈ as, ∀ b, Decidable (a = b)) → Decidable (as = bs)
  | [], [], _ => isTrue rfl
  | [], _ :: _, _ => isFalse nofun
  | _ :: _, [], _ => isFalse nofun
  | a :: as, b :: bs, decideEq =>
    match decideEq a (by simp) b with
    | isFalse h => isFalse fun h' => h (List.cons.inj h').1
    | isTrue h =>
      match decideList as bs fun x hx => decideEq x (by simp [hx]) with
      | isFalse h' => isFalse fun h'' => h' (List.cons.inj h'').2
      | isTrue h' => isTrue (h ▸ h' ▸ rfl)

/-- Equality of fields, given equality of the children in the first. -/
def decideField {α : Type} :
    (f g : Field α) → (∀ a ∈ f.nodes, ∀ b, Decidable (a = b)) → Decidable (f = g)
  | .one none, .one none, _ => isTrue rfl
  | .one none, .one (some _), _ => isFalse nofun
  | .one (some _), .one none, _ => isFalse nofun
  | .one (some a), .one (some b), decideEq =>
    match decideEq a (by simp [Field.nodes]) b with
    | isFalse h => isFalse fun h' => h (Option.some.inj (Field.one.inj h'))
    | isTrue h => isTrue (h ▸ rfl)
  | .one _, .many _, _ => isFalse nofun
  | .many _, .one _, _ => isFalse nofun
  | .many as, .many bs, decideEq =>
    match decideList as bs decideEq with
    | isFalse h => isFalse fun h' => h (Field.many.inj h')
    | isTrue h => isTrue (h ▸ rfl)

/-- Equality of lists of fields, given equality of the children in the first. -/
def decideFields {α : Type} :
    (fs gs : List (Field α)) → (∀ a ∈ fs.flatMap Field.nodes, ∀ b, Decidable (a = b)) →
      Decidable (fs = gs)
  | [], [], _ => isTrue rfl
  | [], _ :: _, _ => isFalse nofun
  | _ :: _, [], _ => isFalse nofun
  | f :: fs, g :: gs, decideEq =>
    match decideField f g fun a ha => decideEq a (by simp [ha]) with
    | isFalse h => isFalse fun h' => h (List.cons.inj h').1
    | isTrue h =>
      match decideFields fs gs fun a ha => decideEq a (List.mem_append_right _ ha) with
      | isFalse h' => isFalse fun h'' => h' (List.cons.inj h'').2
      | isTrue h' => isTrue (h ▸ h' ▸ rfl)

/-- Equality of contents: form and scalar texts first, then the fields. -/
def decideEq : (a b : Content) → Decidable (a = b)
  | mk k, mk l =>
    if hts : k.tag = l.tag ∧ k.scalars = l.scalars then
      match decideFields k.fields l.fields fun a _ b => decideEq a b with
      | isTrue hf => isTrue (congrArg mk (Kind.ext_parts hts.1 hts.2 hf))
      | isFalse hf => isFalse fun h => hf (congrArg Kind.fields (Content.mk.inj h))
    else isFalse fun h => hts ⟨congrArg Kind.tag (Content.mk.inj h), congrArg Kind.scalars (Content.mk.inj h)⟩
termination_by a => sizeOf a
decreasing_by
  rename_i h
  have := Kind.sizeOf_lt_of_mem h
  simp only [Content.mk.sizeOf_spec]
  omega

instance : DecidableEq Content := decideEq

end Content

end StructuralEditor
