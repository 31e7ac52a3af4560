import Mathlib.Order.Lattice
import Mathlib.Tactic.Order
import StructuralEditor.Position

/-!
# Positions in a row

* the document order of positions is linear;
* `Span.Covers` : one stretch lies within another;
* `Span.Proper` : a stretch that holds text, between ends with a property;
* `Span.union_assoc`, `Span.covers_union_left`, `Span.covers_union_right` : the least stretch over two;
* `pairwise_cases` : of two members of a row, one comes before the other.
-/

namespace StructuralEditor

instance : LinearOrder Position where
  le_refl := Position.le_refl
  le_trans _ _ _ := Position.le_trans
  lt_iff_le_not_ge p q := by
    simp only [Position.lt_def, Position.le_def]
    omega
  le_antisymm p q h h' := by
    obtain ⟨l, c⟩ := p
    obtain ⟨l', c'⟩ := q
    simp only [Position.le_def, Position.mk.injEq] at *
    omega
  le_total p q := by
    simp only [Position.le_def]
    omega
  toDecidableLE := inferInstance

/-- Of two members of a list, one is in the relation to the other, or they are the same. -/
theorem pairwise_cases {α : Type} {R : α → α → Prop} {as : List α} (h : as.Pairwise R) {a b : α} (ha : a ∈ as)
    (hb : b ∈ as) : a = b ∨ R a b ∨ R b a := by
  induction h with
  | nil => cases ha
  | cons hc _ ih =>
    rcases List.mem_cons.mp ha with rfl | ha'
    · rcases List.mem_cons.mp hb with rfl | hb'
      · exact .inl rfl
      · exact .inr (.inl (hc b hb'))
    · rcases List.mem_cons.mp hb with rfl | hb'
      · exact .inr (.inr (hc a ha'))
      · exact ih ha' hb'

namespace Span

def Covers (s t : Span) : Prop := s.start ≤ t.start ∧ t.stop ≤ s.stop

/-- The stretch holds text, and its ends have the property. -/
def Proper (P : Position → Prop) (s : Span) : Prop := P s.start ∧ P s.stop ∧ s.start < s.stop

theorem Covers.trans {s t u : Span} (h : s.Covers t) (h' : t.Covers u) : s.Covers u :=
  ⟨le_trans h.1 h'.1, le_trans h'.2 h.2⟩

theorem union_assoc (s t u : Span) : (s.union t).union u = s.union (t.union u) := by
  simp only [union, min_assoc, max_assoc]

theorem covers_union_left (s t : Span) : (s.union t).Covers s := ⟨min_le_left _ _, le_max_left _ _⟩

theorem covers_union_right (s t : Span) : (s.union t).Covers t := ⟨min_le_right _ _, le_max_right _ _⟩

theorem Covers.contains {s t : Span} {p : Position} (h : s.Covers t) (hp : t.contains p = true) :
    s.contains p = true := by
  obtain ⟨hle, hge, hne⟩ := contains_iff.mp hp
  have hlt : t.start < t.stop := lt_of_le_of_ne (hle.trans hge) hne
  exact contains_iff.mpr ⟨h.1.trans hle, hge.trans h.2, (h.1.trans_lt (hlt.trans_le h.2)).ne⟩

/-- Two stretches in order span from the start of the first to the end of the second. -/
theorem union_of_le {s t : Span} (hstart : s.start ≤ t.start) (hstop : s.stop ≤ t.stop) :
    s.union t = ⟨s.start, t.stop⟩ := by
  simp only [union, min_eq_left hstart, max_eq_right hstop]

end Span

end StructuralEditor
