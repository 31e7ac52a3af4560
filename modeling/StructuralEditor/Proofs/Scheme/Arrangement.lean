import Mathlib.Data.List.Nodup
import StructuralEditor.Proofs.Scheme.Reading
import StructuralEditor.Proofs.Scheme.Spans
import StructuralEditor.Proofs.Span

/-!
# Items in a row

* `Item.Arranged` : items stand one after the other between two positions, the parts of a list between its brackets;
* `Token.Bounds`, `Item.arranged_of_parts` : so do the items of a text, and their ends are ends of tokens;
* `Datum.spans` : the stretches of a datum and of the data in it, whose starts grow (`Item.Arranged.pairwise_spans`).
-/

namespace StructuralEditor.Scheme

namespace Item

/-- The items stand one after the other between two positions, and the parts of a list between its brackets. Their
ends have the property. -/
inductive Arranged (P : Position → Prop) : Position → List Item → Position → Prop
  | nil {a b : Position} (h : a ≤ b) : Arranged P a [] b
  | atom {a b : Position} {rest : List Item} (text : String) {span : Span} (ha : a ≤ span.start)
    (hspan : span.Proper P) (hrest : Arranged P span.stop rest b) : Arranged P a (.atom text span :: rest) b
  | string {a b : Position} {rest : List Item} (text : String) {span : Span} (ha : a ≤ span.start)
    (hspan : span.Proper P) (hrest : Arranged P span.stop rest b) : Arranged P a (.string text span :: rest) b
  | comment {a b : Position} {rest : List Item} (text : String) {span : Span} (ha : a ≤ span.start)
    (hspan : span.Proper P) (hrest : Arranged P span.stop rest b) : Arranged P a (.comment text span :: rest) b
  | list {a b low high : Position} {parts rest : List Item} {span : Span} (ha : a ≤ span.start)
    (hspan : span.Proper P) (hlow : span.start < low) (hhigh : high < span.stop) (hparts : Arranged P low parts high)
    (hrest : Arranged P span.stop rest b) : Arranged P a (.list parts span :: rest) b

variable {P : Position → Prop} {a b : Position} {items rest : List Item}

theorem Arranged.le (h : Arranged P a items b) : a ≤ b := by
  induction h with
  | nil h => exact h
  | atom _ ha hspan _ ih | string _ ha hspan _ ih | comment _ ha hspan _ ih =>
    exact ha.trans (hspan.2.2.le.trans ih)
  | list ha hspan _ _ _ _ _ ih => exact ha.trans (hspan.2.2.le.trans ih)

theorem arranged_of_nested {n : Nat} {tokens : List Token} (h : Nested n tokens items)
    (hproper : ∀ token ∈ tokens, token.span.Proper P)
    (hapart : tokens.Pairwise fun s t => s.span.stop ≤ t.span.start) (ha : ∀ token ∈ tokens, a ≤ token.span.start)
    (hb : ∀ token ∈ tokens, token.span.stop ≤ b) (hab : a ≤ b) : Arranged P a items b := by
  induction h generalizing a b with
  | nil => exact .nil hab
  | atom text span _ ih | string text span _ ih | comment text span _ ih =>
    obtain ⟨hspan, hproper⟩ := List.forall_mem_cons.mp hproper
    obtain ⟨hbehind, hapart⟩ := List.pairwise_cons.mp hapart
    obtain ⟨hstop, hb⟩ := List.forall_mem_cons.mp hb
    constructor
    · exact (List.forall_mem_cons.mp ha).1
    · exact hspan
    · exact ih hproper hapart hbehind hb hstop
  | @list n inner tokens parts items bracket opened closed _ _ ihparts ihrest =>
    obtain ⟨hopened, hproper⟩ := List.forall_mem_cons.mp hproper
    obtain ⟨hinner, hproper⟩ := List.forall_mem_append.mp hproper
    obtain ⟨hclosed, hproper⟩ := List.forall_mem_cons.mp hproper
    obtain ⟨hbehind, hapart⟩ := List.pairwise_cons.mp hapart
    obtain ⟨hinnerApart, hapart, hbefore⟩ := List.pairwise_append.mp hapart
    obtain ⟨hrest, hapart⟩ := List.pairwise_cons.mp hapart
    have hle : opened.stop ≤ closed.start := hbehind ⟨.closing bracket, closed⟩ (by simp)
    have hunion : opened.union closed = ⟨opened.start, closed.stop⟩ := by
      refine Span.union_of_le ?_ ?_
      · exact hopened.2.2.le.trans hle
      · exact hle.trans hclosed.2.2.le
    rw [hunion]
    refine .list ?_ ?_ hopened.2.2 hclosed.2.2 ?_ ?_
    · exact (List.forall_mem_cons.mp ha).1
    · exact ⟨hopened.1, hclosed.2.1, hopened.2.2.trans_le (hle.trans hclosed.2.2.le)⟩
    · refine ihparts hinner hinnerApart (fun token hmem => ?_) (fun token hmem => ?_) hle
      · exact hbehind token (List.mem_append_left _ hmem)
      · exact hbefore token hmem _ List.mem_cons_self
    · refine ihrest hproper hapart hrest (fun token hmem => ?_) ?_
      · exact hb token (by simp [hmem])
      · exact hb ⟨.closing bracket, closed⟩ (by simp)

end Item

/-! ## Ends of tokens -/

def Token.Bounds (tokens : List Token) (p : Position) : Prop :=
  ∃ token ∈ tokens, token.span.start = p ∨ token.span.stop = p

theorem Token.proper_of_mem {tokens : List Token} {token : Token} (hmem : token ∈ tokens)
    (h : token.span.start < token.span.stop) : token.span.Proper (Token.Bounds tokens) :=
  ⟨⟨token, hmem, .inl rfl⟩, ⟨token, hmem, .inr rfl⟩, h⟩

theorem Token.not_bounds_of_inside {tokens : List Token}
    (hapart : tokens.Pairwise fun s t => s.span.stop ≤ t.span.start)
    (hproper : ∀ token ∈ tokens, token.span.start < token.span.stop) {token : Token} (hmem : token ∈ tokens)
    {p : Position} (hstart : token.span.start < p) (hstop : p < token.span.stop) : ¬ Token.Bounds tokens p := by
  rintro ⟨other, hother, hend⟩
  have hlt := hproper other hother
  rcases pairwise_cases hapart hother hmem with rfl | hside | hside
  · rcases hend with rfl | rfl
    · exact lt_irrefl _ hstart
    · exact lt_irrefl _ hstop
  · rcases hend with rfl | rfl <;> order
  · rcases hend with rfl | rfl <;> order

theorem Scans.stop_le {p : Position} {passed rest : List Char} {tokens : List Token} (h : Scans p passed tokens rest) :
    ∀ token ∈ tokens, token.span.stop ≤ p.after passed := by
  intro token hmem
  obtain ⟨before, raw, behind, rfl, hspan, -⟩ := h.exists_stands token hmem
  rw [hspan, Position.after_append p (before ++ raw) behind]
  exact Position.le_after _ behind

theorem Item.arranged_of_parts {source : String} {tokens : List Token} {items : List Item}
    (htokens : Token.tokenize source = .ok tokens) (hitems : Item.read tokens = .ok items) :
    Item.Arranged (Token.Bounds tokens) Position.zero items (Position.zero.after source.toList) := by
  have hscans := Token.scan_eq_ok_iff.mp htokens
  have htiled := Token.tiled_of_scans hscans
  refine arranged_of_nested (read_eq_ok_iff.mp hitems) (fun token hmem => ?_) htiled.apart hscans.le_start
    hscans.stop_le (Position.le_after _ _)
  exact Token.proper_of_mem hmem (htiled.positions token hmem).2.2

theorem Token.hasPosition_of_bounds {source : String} {tokens : List Token} (h : Token.tokenize source = .ok tokens)
    {p : Position} (hp : Token.Bounds tokens p) : (⟨source⟩ : Buffer).HasPosition p := by
  obtain ⟨token, hmem, rfl | rfl⟩ := hp
  · exact ((tiled_of_scans (scan_eq_ok_iff.mp h)).positions token hmem).1
  · exact ((tiled_of_scans (scan_eq_ok_iff.mp h)).positions token hmem).2.1

/-! ## Data -/

namespace Datum

mutual

/-- The stretches of a datum and of the data in it, in document order. -/
def spans : Datum → List Span
  | atom _ span | string _ span => [span]
  | list data span => span :: spansOf data

/-- The stretches of data and of the data in them, in document order. -/
def spansOf : List Datum → List Span
  | [] => []
  | datum :: rest => datum.spans ++ spansOf rest

end

theorem mem_spansOf_iff {data : List Datum} {s : Span} : s ∈ spansOf data ↔ ∃ datum ∈ data, s ∈ datum.spans := by
  induction data with
  | nil => simp [spansOf]
  | cons datum rest ih => simp [spansOf, ih]

theorem span_mem_spans (datum : Datum) : datum.span ∈ datum.spans := by
  cases datum <;> simp [spans, span]

end Datum

namespace Item

/-- The stretches of the data among the items and in them. -/
def spans (items : List Item) : List Span := Datum.spansOf (data items)

@[simp] theorem data_nil : data [] = [] := rfl

@[simp] theorem data_atom (text : String) (span : Span) (rest : List Item) :
    data (.atom text span :: rest) = .atom text span :: data rest := rfl

@[simp] theorem data_string (text : String) (span : Span) (rest : List Item) :
    data (.string text span :: rest) = .string text span :: data rest := rfl

@[simp] theorem data_comment (text : String) (span : Span) (rest : List Item) :
    data (.comment text span :: rest) = data rest := rfl

@[simp] theorem data_list (parts : List Item) (span : Span) (rest : List Item) :
    data (.list parts span :: rest) = .list (data parts) span :: data rest := rfl

@[simp] theorem spans_nil : spans [] = [] := rfl

@[simp] theorem spans_atom (text : String) (span : Span) (rest : List Item) :
    spans (.atom text span :: rest) = span :: spans rest := rfl

@[simp] theorem spans_string (text : String) (span : Span) (rest : List Item) :
    spans (.string text span :: rest) = span :: spans rest := rfl

@[simp] theorem spans_comment (text : String) (span : Span) (rest : List Item) :
    spans (.comment text span :: rest) = spans rest := rfl

@[simp] theorem spans_list (parts : List Item) (span : Span) (rest : List Item) :
    spans (.list parts span :: rest) = span :: (spans parts ++ spans rest) := rfl

namespace Arranged

variable {P : Position → Prop} {a b : Position} {items : List Item}

theorem spans_between (h : Arranged P a items b) : ∀ s ∈ spans items, s.Proper P ∧ a ≤ s.start ∧ s.stop ≤ b := by
  induction h with
  | nil _ => simp
  | atom _ ha hspan hrest ih | string _ ha hspan hrest ih =>
    refine List.forall_mem_cons.mpr ⟨⟨hspan, ha, hrest.le⟩, fun s hs => ?_⟩
    obtain ⟨hproper, hstart, hstop⟩ := ih s hs
    exact ⟨hproper, ha.trans (hspan.2.2.le.trans hstart), hstop⟩
  | comment _ ha hspan _ ih =>
    intro s hs
    obtain ⟨hproper, hstart, hstop⟩ := ih s hs
    exact ⟨hproper, ha.trans (hspan.2.2.le.trans hstart), hstop⟩
  | list ha hspan hlow hhigh _ hrest ihparts ihrest =>
    refine List.forall_mem_cons.mpr ⟨⟨hspan, ha, hrest.le⟩, List.forall_mem_append.mpr ⟨fun s hs => ?_, fun s hs => ?_⟩⟩
    · obtain ⟨hproper, hstart, hstop⟩ := ihparts s hs
      exact ⟨hproper, ha.trans (hlow.le.trans hstart), (hstop.trans hhigh.le).trans hrest.le⟩
    · obtain ⟨hproper, hstart, hstop⟩ := ihrest s hs
      exact ⟨hproper, ha.trans (hspan.2.2.le.trans hstart), hstop⟩

theorem pairwise_spans (h : Arranged P a items b) : (spans items).Pairwise fun s t => s.start < t.start := by
  induction h with
  | nil _ => exact .nil
  | atom _ _ hspan hrest ih | string _ _ hspan hrest ih =>
    refine .cons (fun s hs => ?_) ih
    exact hspan.2.2.trans_le (hrest.spans_between s hs).2.1
  | comment _ _ _ _ ih => exact ih
  | list _ hspan hlow hhigh hparts hrest ihparts ihrest =>
    refine .cons (List.forall_mem_append.mpr ⟨fun s hs => ?_, fun s hs => ?_⟩)
      (List.pairwise_append.mpr ⟨ihparts, ihrest, fun s hs t ht => ?_⟩)
    · exact hlow.trans_le (hparts.spans_between s hs).2.1
    · exact hspan.2.2.trans_le (hrest.spans_between s hs).2.1
    · obtain ⟨⟨-, -, hlt⟩, -, hstop⟩ := hparts.spans_between s hs
      have := (hrest.spans_between t ht).2.1
      order

theorem span_eq_of_start_eq (h : Arranged P a items b) {s t : Span} (hs : s ∈ spans items) (ht : t ∈ spans items)
    (hstart : s.start = t.start) : s = t := by
  have hnodup : ((spans items).map Span.start).Nodup :=
    List.pairwise_map.mpr (h.pairwise_spans.imp ne_of_lt)
  exact List.inj_on_of_nodup_map hnodup hs ht hstart

end Arranged

end Item

end StructuralEditor.Scheme
