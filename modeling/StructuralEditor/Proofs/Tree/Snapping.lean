import Mathlib.Data.Option.Basic
import StructuralEditor.Proofs.Tree.DocumentOrder
import StructuralEditor.Tree.Navigation

/-!
# Paths that may lead nowhere

* `Tree.snapTurn`, `Tree.Snaps` : one turn of the search for the node nearest to a path, and a whole search with the
  number of its turns; `Tree.Snaps.closestUp?_eq` : what the search answers is the nearest node;
* `Tree.Resolves` : segments that lead to a node, or are none; `Tree.Built.byPath?_concat` : one segment more leads to
  one of the nodes under that one;
* `Tree.Built.snaps_lost` : what the search answers once the segments lead nowhere;
* `Tree.LongestResolved`, `Tree.Snapped`, `Tree.Built.snapped` : the nearest node by the longest beginning that leads
  to a node.
-/

namespace StructuralEditor

theorem Table.follow?_cons_concat (t : Table) (roots : List Nat) (first : Nat) (rest : List Nat) (index : Nat) :
    t.follow? roots ⟨first :: (rest ++ [index])⟩ =
      (t.follow? roots ⟨first :: rest⟩).bind fun last => (t.children last)[index]? := by
  show (roots[first]?.bind fun root => t.down? root (rest ++ [index])) = _
  simp only [down?_concat]
  exact (Option.bind_assoc _ _ _).symm

namespace Tree

variable {t : Tree}

/-! ## Turns -/

/-- One turn of the search for the node nearest to a path, with the segments last one first: an answer, or the segments
to go on with. -/
def snapTurn (t : Tree) : List Nat → Option Nat ⊕ List Nat
  | [] => .inl none
  | last :: above =>
    match t.byPath? ⟨(last :: above).reverse⟩ with
    | some id => .inl (some id)
    | none =>
      .inr (if 0 < last ∧ 0 < t.siblings above then min (last - 1) (t.siblings above - 1) :: above else above)

/-- The search from the given segments has an answer after so many turns. -/
inductive Snaps (t : Tree) : Nat → List Nat → Option Nat → Prop
  | answer {key : List Nat} {found : Option Nat} (h : t.snapTurn key = .inl found) : Snaps t 1 key found
  | turn {n : Nat} {key next : List Nat} {found : Option Nat} (h : t.snapTurn key = .inr next)
    (hnext : Snaps t n next found) : Snaps t (n + 1) key found

theorem closestUp?_eq_turn (t : Tree) (key : List Nat) :
    t.closestUp? key = match t.snapTurn key with
      | .inl found => found
      | .inr next => t.closestUp? next := by
  cases key with
  | nil => rw [closestUp?, snapTurn]
  | cons last above =>
    rw [closestUp?, snapTurn]
    cases t.byPath? ⟨(last :: above).reverse⟩ with
    | some id => rfl
    | none =>
      simp only
      split <;> rfl

theorem Snaps.closestUp?_eq {n : Nat} {key : List Nat} {found : Option Nat} (h : t.Snaps n key found) :
    t.closestUp? key = found := by
  induction h with
  | answer h => rw [closestUp?_eq_turn, h]
  | turn h _ ih =>
    rw [closestUp?_eq_turn, h]
    exact ih

/-! ## Segments that lead to a node -/

/-- The segments lead to a node, or are none. -/
def Resolves (t : Tree) (segments : List Nat) : Prop := segments = [] ∨ ∃ id, t.byPath? ⟨segments⟩ = some id

theorem not_resolves_of_lost {front : List Nat} {index : Nat} (h : t.byPath? ⟨front ++ [index]⟩ = none) :
    ¬ t.Resolves (front ++ [index]) := by
  rintro (hnil | ⟨id, hid⟩)
  · simp at hnil
  · cases h.symm.trans hid

namespace Built

variable {front : List Nat} {index : Nat}

theorem byPath?_nil (h : t.Built) : t.byPath? ⟨[]⟩ = none := h.byPath?_eq_follow? ⟨[]⟩

theorem byPath?_of_roots_eq_nil (h : t.Built) (hroots : t.roots = []) (path : Path) : t.byPath? path = none := by
  rw [h.byPath?_eq_follow?, hroots]
  obtain ⟨segments⟩ := path
  cases segments <;> rfl

/-- One segment more leads to one of the nodes under the node before, or to a root. -/
theorem byPath?_concat (h : t.Built) (hfront : t.Resolves front) (index : Nat) :
    t.byPath? ⟨front ++ [index]⟩ = (t.under (t.byPath? ⟨front⟩))[index]? := by
  rcases hfront with rfl | ⟨id, hid⟩
  · rw [h.byPath?_nil, h.byPath?_eq_follow?]
    exact Table.follow?_root index
  · have hfollow := (h.byPath?_eq_follow? ⟨front⟩).symm.trans hid
    rw [hid, h.byPath?_eq_follow?]
    exact Table.follow?_child hfollow index

theorem byPath?_concat_of_lost (h : t.Built) (hfront : ¬ t.Resolves front) (index : Nat) :
    t.byPath? ⟨front ++ [index]⟩ = none := by
  cases front with
  | nil => exact absurd (.inl rfl) hfront
  | cons first rest =>
    have hlost : t.byPath? ⟨first :: rest⟩ = none :=
      Option.eq_none_iff_forall_ne_some.mpr fun id hid => hfront (.inr ⟨id, hid⟩)
    rw [h.byPath?_eq_follow?] at hlost ⊢
    rw [List.cons_append, Table.follow?_cons_concat, hlost, Option.bind_none]

theorem not_resolves_append (h : t.Built) (hlost : ¬ t.Resolves front) (rest : List Nat) :
    ¬ t.Resolves (front ++ rest) := by
  induction rest using List.reverseRecOn with
  | nil => rwa [List.append_nil]
  | append_singleton rest index ih =>
    rw [← List.append_assoc]
    exact not_resolves_of_lost (h.byPath?_concat_of_lost ih index)

theorem siblings_reverse (h : t.Built) (hfront : t.Resolves front) :
    t.siblings front.reverse = (t.under (t.byPath? ⟨front⟩)).length := by
  rcases hfront with rfl | ⟨id, hid⟩
  · rw [h.byPath?_nil]
    rfl
  · have hne : front.reverse ≠ [] := by
      intro hnil
      rw [List.reverse_eq_nil_iff.mp hnil, h.byPath?_nil] at hid
      cases hid
    rw [siblings, List.reverse_reverse, hid]
    · rfl
    · exact hne

theorem siblings_reverse_of_lost (hfront : ¬ t.Resolves front) : t.siblings front.reverse = 0 := by
  have hne : front.reverse ≠ [] := fun hnil => hfront (.inl (List.reverse_eq_nil_iff.mp hnil))
  have hlost : t.byPath? ⟨front⟩ = none :=
    Option.eq_none_iff_forall_ne_some.mpr fun id hid => hfront (.inr ⟨id, hid⟩)
  rw [siblings, List.reverse_reverse, hlost]
  exact hne

/-! ## Searches -/

theorem snapTurn_concat (t : Tree) (front : List Nat) (last : Nat) :
    t.snapTurn (front ++ [last]).reverse = match t.byPath? ⟨front ++ [last]⟩ with
      | some id => .inl (some id)
      | none => .inr (if 0 < last ∧ 0 < t.siblings front.reverse then
          (front ++ [min (last - 1) (t.siblings front.reverse - 1)]).reverse else front.reverse) := by
  rw [List.reverse_concat, List.reverse_concat, snapTurn, List.reverse_cons, List.reverse_reverse]

theorem snaps_of_some (h : t.Built) {segments : List Nat} {id : Nat} (hid : t.byPath? ⟨segments⟩ = some id) :
    t.Snaps 1 segments.reverse (some id) := by
  refine .answer ?_
  cases segments using List.reverseRecOn with
  | nil => cases h.byPath?_nil.symm.trans hid
  | append_singleton front last => rw [snapTurn_concat, hid]

theorem snaps_of_resolves (h : t.Built) (hfront : t.Resolves front) : t.Snaps 1 front.reverse (t.byPath? ⟨front⟩) := by
  rcases hfront with rfl | ⟨id, hid⟩
  · rw [h.byPath?_nil]
    exact .answer rfl
  · rw [hid]
    exact h.snaps_of_some hid

/-- Where one segment too many leads nowhere, the search goes to the last node in its row, or else back. -/
theorem snaps_edge (h : t.Built) (hfront : t.Resolves front) (hlost : t.byPath? ⟨front ++ [index]⟩ = none) :
    t.Snaps 2 (front ++ [index]).reverse ((t.under (t.byPath? ⟨front⟩)).getLast? <|> t.byPath? ⟨front⟩) := by
  have hrow := h.byPath?_concat hfront
  have hturn := snapTurn_concat t front index
  rw [hlost, h.siblings_reverse hfront] at hturn
  have hlength := List.getElem?_eq_none_iff.mp ((hrow index).symm.trans hlost)
  generalize t.under (t.byPath? ⟨front⟩) = row at *
  cases row using List.reverseRecOn with
  | nil =>
    rw [if_neg (by simp)] at hturn
    exact .turn hturn (h.snaps_of_resolves hfront)
  | append_singleton init last =>
    rw [List.length_append, List.length_singleton] at hturn hlength
    have hmin : min (index - 1) (init.length + 1 - 1) = init.length := by omega
    rw [if_pos (by omega), hmin] at hturn
    rw [List.getLast?_concat]
    refine .turn hturn (h.snaps_of_some ?_)
    rw [hrow, List.getElem?_concat_length]

/-- Each segment behind the one that leads nowhere costs a turn more. -/
theorem snaps_lost (h : t.Built) (hfront : t.Resolves front) (hlost : t.byPath? ⟨front ++ [index]⟩ = none)
    (rest : List Nat) : t.Snaps (rest.length + 2) (front ++ index :: rest).reverse
      ((t.under (t.byPath? ⟨front⟩)).getLast? <|> t.byPath? ⟨front⟩) := by
  have hnot := not_resolves_of_lost hlost
  -- The search goes from the end: where the parent leads nowhere there are no siblings, so a segment is dropped.
  induction rest using List.reverseRecOn with
  | nil => exact h.snaps_edge hfront hlost
  | append_singleton rest last ih =>
    have hlost' := h.not_resolves_append hnot rest
    rw [List.append_assoc, List.singleton_append] at hlost'
    rw [← List.cons_append, ← List.append_assoc, List.length_append, List.length_singleton]
    refine .turn ?_ ih
    rw [snapTurn_concat, h.byPath?_concat_of_lost hlost', siblings_reverse_of_lost hlost', if_neg (by simp)]

end Built

/-! ## The nearest node -/

/-- The longest beginning of the segments that leads to a node, or none of them. -/
structure LongestResolved (t : Tree) (segments front : List Nat) : Prop where
  begins : front <+: segments
  resolves : t.Resolves front
  longest : ∀ longer id, longer <+: segments → t.byPath? ⟨longer⟩ = some id → longer <+: front

/-- Where segments are snapped to, of which `front` is the longest beginning that leads to a node: if that is not all of
them, to the last child of the node, or else to the node itself. If there is no such beginning, to the last root. -/
def snapTo (t : Tree) (segments front : List Nat) : Option Nat :=
  if front = segments then t.byPath? ⟨front⟩
  else (t.under (t.byPath? ⟨front⟩)).getLast? <|> t.byPath? ⟨front⟩

/-- What the search for the node nearest to a path answers, and after how many turns. -/
structure Snapped (t : Tree) (segments : List Nat) : Prop where
  turns : ∃ n ≤ segments.length + 1, t.Snaps n segments.reverse (t.closest? segments)
  nearest : ∃ front, t.LongestResolved segments front ∧ t.closest? segments = t.snapTo segments front
  none_iff : t.closest? segments = none ↔ segments = [] ∨ t.roots = []

/-- Segments lead to a node, or there is a first one that leads nowhere. -/
theorem resolves_or_exists_lost (t : Tree) (segments : List Nat) : t.Resolves segments ∨
    ∃ front index rest, segments = front ++ index :: rest ∧ t.Resolves front ∧ t.byPath? ⟨front ++ [index]⟩ = none := by
  induction segments using List.reverseRecOn with
  | nil => exact .inl (.inl rfl)
  | append_singleton segments last ih =>
    rcases ih with hresolves | ⟨front, index, rest, rfl, hfront, hlost⟩
    · cases hid : t.byPath? ⟨segments ++ [last]⟩ with
      | some id => exact .inl (.inr ⟨id, hid⟩)
      | none => exact .inr ⟨segments, last, [], rfl, hresolves, hid⟩
    · exact .inr ⟨front, index, rest ++ [last], by simp, hfront, hlost⟩

namespace Built

variable {segments front : List Nat} {index : Nat}

theorem longestResolved_of_lost (h : t.Built) (hfront : t.Resolves front)
    (hlost : t.byPath? ⟨front ++ [index]⟩ = none) (rest : List Nat) :
    t.LongestResolved (front ++ index :: rest) front where
  begins := List.prefix_append _ _
  resolves := hfront
  longest := by
    intro longer id hlonger hid
    have hshort : longer <+: front ++ [index] ∨ front ++ [index] <+: longer := by
      refine List.prefix_or_prefix_of_prefix hlonger ?_
      rw [List.append_cons front index rest]
      exact List.prefix_append _ _
    rcases hshort with hshort | ⟨more, rfl⟩
    · rcases List.prefix_concat_iff.mp hshort with rfl | hfront
      · cases hlost.symm.trans hid
      · exact hfront
    · exact absurd (.inr ⟨id, hid⟩) (h.not_resolves_append (not_resolves_of_lost hlost) more)

theorem byPath?_eq_none_iff (h : t.Built) (hresolves : t.Resolves segments) :
    t.byPath? ⟨segments⟩ = none ↔ segments = [] ∨ t.roots = [] := by
  constructor
  · intro hnone
    rcases hresolves with hnil | ⟨id, hid⟩
    · exact .inl hnil
    · cases hnone.symm.trans hid
  · rintro (rfl | hroots)
    · exact h.byPath?_nil
    · exact h.byPath?_of_roots_eq_nil hroots _

theorem last_orElse_eq_none_iff (h : t.Built) :
    ((t.under (t.byPath? ⟨front⟩)).getLast? <|> t.byPath? ⟨front⟩) = none ↔ t.roots = [] := by
  rw [Option.orElse_eq_none, List.getLast?_eq_none_iff]
  constructor
  · rintro ⟨hrow, hnone⟩
    rwa [hnone] at hrow
  · intro hroots
    have hnone := h.byPath?_of_roots_eq_nil hroots ⟨front⟩
    rw [hnone]
    exact ⟨hroots, rfl⟩

/-- The search ends after one turn more than there are segments at the latest, with the node at the longest beginning
that leads to one, or the last node under that; it finds nothing only if there is nothing to go by or to find. -/
theorem snapped (h : t.Built) (segments : List Nat) : t.Snapped segments := by
  rcases t.resolves_or_exists_lost segments with hresolves | ⟨front, index, rest, rfl, hfront, hlost⟩
  · have hsnaps := h.snaps_of_resolves hresolves
    have hclosest : t.closest? segments = t.byPath? ⟨segments⟩ := hsnaps.closestUp?_eq
    refine ⟨⟨1, Nat.le_add_left _ _, hclosest ▸ hsnaps⟩, ⟨segments, ?_, ?_⟩, ?_⟩
    · exact ⟨List.prefix_rfl, hresolves, fun longer id hlonger _ => hlonger⟩
    · rw [hclosest, snapTo, if_pos rfl]
    · rw [hclosest, h.byPath?_eq_none_iff hresolves]
  · have hsnaps := h.snaps_lost hfront hlost rest
    have hclosest : t.closest? (front ++ index :: rest) = _ := hsnaps.closestUp?_eq
    refine ⟨⟨rest.length + 2, ?_, hclosest ▸ hsnaps⟩, ⟨front, h.longestResolved_of_lost hfront hlost rest, ?_⟩, ?_⟩
    · rw [List.length_append, List.length_cons]
      omega
    · rw [hclosest, snapTo, if_neg (by simp)]
    · rw [hclosest, h.last_orElse_eq_none_iff]
      simp

end Built

end Tree

end StructuralEditor
