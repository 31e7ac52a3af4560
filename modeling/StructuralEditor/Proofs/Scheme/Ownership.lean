import StructuralEditor.Proofs.Scheme.Arrangement
import StructuralEditor.Scheme.CommentPlan

/-!
# What comments belong to

* `Item.remarks` : the comments of a text, each with the datum that it belongs to;
* `Belongs` : a comment belongs to the datum that starts at a position;
* `Datum.Laid` : a datum with its parts in order, and the comments that belong to a part beside no other part;
* `Item.Arranged.laid` : so it is with the data of a text;
* `Item.Arranged.beside` : a comment within the datum that it belongs to is in a list without data;
* `Reaches`, `Datum.Laid.tangled` : of two data that reach a position with their comments, one spans it.
-/

namespace StructuralEditor.Scheme

/-- A comment, and the stretch of the datum that it belongs to. -/
structure Remark where
  comment : Comment
  owner : Option Span
deriving DecidableEq, Repr

namespace Item

def next? (items : List Item) : Option Span := (data items).head?.map Datum.span

mutual

/-- The comments in an item, each with the datum that it belongs to. -/
def remarksIn : Item → List Remark
  | .list parts span => remarks (some span) parts
  | .atom .. | .string .. | .comment .. => []

/-- The comments among the items and in them, each with the datum that it belongs to: the next one of its list, or
else what stands `behind` it, the last one before it or the list itself. A comment at the end of a text belongs to
none. -/
def remarks (behind : Option Span) : List Item → List Remark
  | [] => []
  | .comment text span :: rest => ⟨⟨span, text⟩, (next? rest).or behind⟩ :: remarks behind rest
  | item :: rest => item.remarksIn ++ remarks (behind.map fun _ => item.span) rest

end

@[simp] theorem remarks_nil (behind : Option Span) : remarks behind [] = [] := rfl

@[simp] theorem remarks_comment (behind : Option Span) (text : String) (span : Span) (rest : List Item) :
    remarks behind (.comment text span :: rest) = ⟨⟨span, text⟩, (next? rest).or behind⟩ :: remarks behind rest := rfl

@[simp] theorem remarks_atom (behind : Option Span) (text : String) (span : Span) (rest : List Item) :
    remarks behind (.atom text span :: rest) = remarks (behind.map fun _ => span) rest := rfl

@[simp] theorem remarks_string (behind : Option Span) (text : String) (span : Span) (rest : List Item) :
    remarks behind (.string text span :: rest) = remarks (behind.map fun _ => span) rest := rfl

@[simp] theorem remarks_list (behind : Option Span) (parts : List Item) (span : Span) (rest : List Item) :
    remarks behind (.list parts span :: rest) =
      remarks (some span) parts ++ remarks (behind.map fun _ => span) rest := rfl

end Item

example : Item.remarks none [.list [.comment ";a" ⟨⟨0, 1⟩, ⟨0, 3⟩⟩, .atom "x" ⟨⟨1, 0⟩, ⟨1, 1⟩⟩,
    .comment ";b" ⟨⟨1, 1⟩, ⟨1, 3⟩⟩] ⟨⟨0, 0⟩, ⟨2, 1⟩⟩, .comment ";c" ⟨⟨2, 1⟩, ⟨2, 3⟩⟩] =
    [⟨⟨⟨⟨0, 1⟩, ⟨0, 3⟩⟩, ";a"⟩, some ⟨⟨1, 0⟩, ⟨1, 1⟩⟩⟩, ⟨⟨⟨⟨1, 1⟩, ⟨1, 3⟩⟩, ";b"⟩, some ⟨⟨1, 0⟩, ⟨1, 1⟩⟩⟩,
      ⟨⟨⟨⟨2, 1⟩, ⟨2, 3⟩⟩, ";c"⟩, none⟩] := by decide

/-- A comment belongs to the datum that starts at the position. -/
def Belongs (remarks : List Remark) (p : Position) (comment : Comment) : Prop :=
  ∃ owner, ⟨comment, some owner⟩ ∈ remarks ∧ owner.start = p

theorem not_belongs_nil {p : Position} {c : Comment} : ¬ Belongs [] p c := by
  simp [Belongs]

theorem Belongs.append {rs rs' : List Remark} {p : Position} {c : Comment} (h : Belongs (rs ++ rs') p c) :
    Belongs rs p c ∨ Belongs rs' p c := by
  obtain ⟨owner, hmem, hstart⟩ := h
  rcases List.mem_append.mp hmem with hmem | hmem
  · exact .inl ⟨owner, hmem, hstart⟩
  · exact .inr ⟨owner, hmem, hstart⟩

theorem Belongs.cons {r : Remark} {rs : List Remark} {p : Position} {c : Comment} (h : Belongs (r :: rs) p c) :
    (c = r.comment ∧ ∃ owner, r.owner = some owner ∧ owner.start = p) ∨ Belongs rs p c := by
  obtain ⟨owner, hmem, hstart⟩ := h
  rcases List.mem_cons.mp hmem with rfl | hmem
  · exact .inl ⟨rfl, owner, rfl, hstart⟩
  · exact .inr ⟨owner, hmem, hstart⟩

/-! ## Where owners stand -/

namespace Item

theorem next?_eq_none_iff {items : List Item} : next? items = none ↔ data items = [] := by
  simp [next?]

theorem span_mem_spans {items : List Item} {d : Datum} (h : d ∈ data items) : d.span ∈ spans items :=
  Datum.mem_spansOf_iff.mpr ⟨d, h, d.span_mem_spans⟩

theorem mem_spans_of_next? {items : List Item} {s : Span} (h : next? items = some s) : s ∈ spans items := by
  obtain ⟨d, hd, rfl⟩ := Option.map_eq_some_iff.mp h
  exact span_mem_spans (List.mem_of_head? hd)

end Item

namespace Item.Arranged

variable {P : Position → Prop} {a b : Position} {items : List Item} {behind : Option Span}

theorem remarks_between (h : Arranged P a items b) (behind : Option Span) : ∀ r ∈ remarks behind items,
    r.comment.span.Proper P ∧ a ≤ r.comment.span.start ∧ r.comment.span.stop ≤ b := by
  induction h generalizing behind with
  | nil _ => simp
  | atom _ ha hspan _ ih | string _ ha hspan _ ih =>
    intro r hr
    obtain ⟨hproper, hstart, hstop⟩ := ih _ r hr
    exact ⟨hproper, ha.trans (hspan.2.2.le.trans hstart), hstop⟩
  | comment _ ha hspan hrest ih =>
    refine List.forall_mem_cons.mpr ⟨⟨hspan, ha, hrest.le⟩, fun r hr => ?_⟩
    obtain ⟨hproper, hstart, hstop⟩ := ih _ r hr
    exact ⟨hproper, ha.trans (hspan.2.2.le.trans hstart), hstop⟩
  | list ha hspan hlow hhigh _ hrest ihparts ihrest =>
    refine List.forall_mem_append.mpr ⟨fun r hr => ?_, fun r hr => ?_⟩
    · obtain ⟨hproper, hstart, hstop⟩ := ihparts _ r hr
      exact ⟨hproper, ha.trans (hlow.le.trans hstart), (hstop.trans hhigh.le).trans hrest.le⟩
    · obtain ⟨hproper, hstart, hstop⟩ := ihrest _ r hr
      exact ⟨hproper, ha.trans (hspan.2.2.le.trans hstart), hstop⟩

/-- A comment belongs to a datum of its row, or there is none and it belongs to what stands behind. -/
theorem owner_cases (h : Arranged P a items b) {c : Comment} {o : Span} (hmem : ⟨c, some o⟩ ∈ remarks behind items) :
    o ∈ spans items ∨ data items = [] ∧ behind = some o := by
  induction h generalizing behind with
  | nil _ => simp at hmem
  | atom _ _ _ _ ih | string _ _ _ _ ih =>
    rcases ih hmem with ho | ⟨-, hbehind⟩
    · exact .inl (List.mem_cons_of_mem _ ho)
    · obtain ⟨-, -, rfl⟩ := Option.map_eq_some_iff.mp hbehind
      exact .inl List.mem_cons_self
  | @comment a b rest text span _ _ _ ih =>
    rcases List.mem_cons.mp hmem with hhere | hmem
    · obtain ⟨-, howner⟩ := Remark.mk.inj hhere
      cases hnext : next? rest with
      | none =>
        rw [hnext, Option.none_or] at howner
        exact .inr ⟨next?_eq_none_iff.mp hnext, howner.symm⟩
      | some s =>
        rw [hnext, Option.some_or] at howner
        cases howner
        exact .inl (mem_spans_of_next? hnext)
    · exact ih hmem
  | list _ _ _ _ _ _ ihparts ihrest =>
    rcases List.mem_append.mp hmem with hmem | hmem
    · rcases ihparts hmem with ho | ⟨-, hspan⟩
      · exact .inl (by simp [ho])
      · cases hspan
        exact .inl List.mem_cons_self
    · rcases ihrest hmem with ho | ⟨-, hbehind⟩
      · exact .inl (by simp [ho])
      · obtain ⟨-, -, rfl⟩ := Option.map_eq_some_iff.mp hbehind
        exact .inl List.mem_cons_self

/-- What comes after a datum belongs to a later one, or to this one if it is the last. -/
theorem belongs_later (h : Arranged P a items b) {c : Comment} {p : Position} {s : Span}
    (hc : Belongs (remarks (behind.map fun _ => s) items) p c) : a ≤ p ∨ data items = [] ∧ p = s.start := by
  obtain ⟨o, hmem, rfl⟩ := hc
  rcases h.owner_cases hmem with ho | ⟨hnil, hbehind⟩
  · exact .inl (h.spans_between o ho).2.1
  · obtain ⟨-, -, rfl⟩ := Option.map_eq_some_iff.mp hbehind
    exact .inr ⟨hnil, rfl⟩

theorem next?_le (h : Arranged P a items b) {s : Span} (hs : next? items = some s) :
    ∀ t ∈ spans items, s.start ≤ t.start := by
  obtain ⟨d, hd, rfl⟩ := Option.map_eq_some_iff.mp hs
  obtain ⟨ds, hds⟩ := List.head?_eq_some_iff.mp hd
  have hfirst : ∃ more, spans items = d.span :: more := by
    rw [spans, hds]
    cases d <;> exact ⟨_, rfl⟩
  obtain ⟨more, hmore⟩ := hfirst
  have hpairwise := h.pairwise_spans
  rw [hmore] at hpairwise ⊢
  exact List.forall_mem_cons.mpr ⟨le_rfl, fun t ht => ((List.pairwise_cons.mp hpairwise).1 t ht).le⟩

end Item.Arranged

/-! ## Layouts -/

/-- A stretch lies within another, and so do the comments of the datum there. -/
structure Encloses (rs : List Remark) (s t : Span) : Prop where
  start : s.start < t.start
  stop : t.stop < s.stop
  comments : ∀ c, Belongs rs t.start c → s.start < c.span.start ∧ c.span.stop < s.stop

/-- A datum stands before another in a row: its comments end with it at the latest, and those of the other one come
after it. -/
structure Precedes (rs : List Remark) (s t : Span) : Prop where
  apart : s.stop ≤ t.start
  first : ∀ c, Belongs rs s.start c → c.span.stop ≤ s.stop
  second : ∀ c, Belongs rs t.start c → s.stop ≤ c.span.start

/-- The parts of a datum stand in order within it with their comments, and none belongs where the last of them ends. -/
inductive Datum.Laid (S : Span → Prop) (rs : List Remark) : Datum → Prop
  | atom (text : String) {span : Span} (here : S span) : Laid S rs (.atom text span)
  | string (text : String) {span : Span} (here : S span) : Laid S rs (.string text span)
  | list {data : List Datum} {span : Span} (here : S span) (inside : ∀ d ∈ data, Encloses rs span d.span)
    (apart : data.Pairwise fun d e => Precedes rs d.span e.span)
    (free : ∀ d ∈ data.getLast?, ∀ c, ¬ Belongs rs d.span.stop c) (below : ∀ d ∈ data, Laid S rs d) :
    Laid S rs (.list data span)

/-- The data stand in order with their comments. -/
structure LaidRow (S : Span → Prop) (rs : List Remark) (data : List Datum) : Prop where
  laid : ∀ d ∈ data, d.Laid S rs
  apart : data.Pairwise fun d e => Precedes rs d.span e.span

variable {S : Span → Prop} {rs rs' : List Remark}

theorem Encloses.mono {s t : Span} (h : Encloses rs s t)
    (hrs : ∀ c, Belongs rs' t.start c → Belongs rs t.start c) : Encloses rs' s t :=
  ⟨h.start, h.stop, fun c hc => h.comments c (hrs c hc)⟩

theorem Precedes.mono {s t : Span} (h : Precedes rs s t) (hs : ∀ c, Belongs rs' s.start c → Belongs rs s.start c)
    (ht : ∀ c, Belongs rs' t.start c → Belongs rs t.start c) : Precedes rs' s t :=
  ⟨h.apart, fun c hc => h.first c (hs c hc), fun c hc => h.second c (ht c hc)⟩

namespace Datum.Laid

theorem here {d : Datum} (h : d.Laid S rs) : S d.span := by
  cases h with
  | atom _ h | string _ h => exact h
  | list h _ _ _ _ => exact h

theorem covers {d : Datum} (h : d.Laid S rs) : ∀ s ∈ d.spans, d.span.Covers s := by
  induction h with
  | atom _ _ | string _ _ => simp [spans, span, Span.Covers]
  | @list data span _ inside _ _ _ ih =>
    refine List.forall_mem_cons.mpr ⟨⟨le_rfl, le_rfl⟩, fun s hs => ?_⟩
    obtain ⟨d, hd, hs⟩ := mem_spansOf_iff.mp hs
    have houter : span.Covers d.span := ⟨(inside d hd).start.le, (inside d hd).stop.le⟩
    exact houter.trans (ih d hd s hs)

theorem forall_spans {d : Datum} (h : d.Laid S rs) : ∀ s ∈ d.spans, S s := by
  induction h with
  | atom _ here | string _ here => exact List.forall_mem_singleton.mpr here
  | list here _ _ _ _ ih =>
    refine List.forall_mem_cons.mpr ⟨here, fun s hs => ?_⟩
    obtain ⟨d, hd, hs⟩ := mem_spansOf_iff.mp hs
    exact ih d hd s hs

theorem mono {d : Datum} (h : d.Laid S rs) (hlt : ∀ s, S s → s.start < s.stop)
    (hrs : ∀ p c, d.span.start < p → p < d.span.stop → Belongs rs' p c → Belongs rs p c) : d.Laid S rs' := by
  induction h with
  | atom text h => exact .atom text h
  | string text h => exact .string text h
  | @list data span here inside apart free below ih =>
    have hstart : ∀ d ∈ data, ∀ c, Belongs rs' d.span.start c → Belongs rs d.span.start c := by
      intro d hd c
      exact hrs _ c (inside d hd).start ((hlt _ (below d hd).here).trans (inside d hd).stop)
    refine .list here (fun d hd => (inside d hd).mono (hstart d hd)) ?_ (fun d hd c hc => ?_) (fun d hd => ?_)
    · exact apart.imp_of_mem fun hd he h => h.mono (hstart _ hd) (hstart _ he)
    · have hmem := List.mem_of_getLast? hd
      refine free d hd c (hrs _ c ?_ (inside d hmem).stop hc)
      exact (inside d hmem).start.trans (hlt _ (below d hmem).here)
    · refine ih d hd fun p c hp hp' => hrs p c ?_ ?_
      · exact (inside d hd).start.trans hp
      · exact hp'.trans (inside d hd).stop

end Datum.Laid

theorem LaidRow.stop_le_last {data : List Datum} {last : Datum} (h : LaidRow S rs (data ++ [last]))
    (hlt : ∀ s, S s → s.start < s.stop) : ∀ d ∈ data ++ [last], d.span.stop ≤ last.span.stop := by
  refine List.forall_mem_append.mpr ⟨fun d hd => ?_, List.forall_mem_singleton.mpr le_rfl⟩
  have hle := ((List.pairwise_append.mp h.apart).2.2 d hd last List.mem_cons_self).apart
  exact hle.trans (hlt _ (h.laid last (List.mem_append_right _ List.mem_cons_self)).here).le

namespace Item.Arranged

variable {P : Position → Prop} {a b : Position} {items rest parts : List Item} {behind : Option Span}

theorem forall_start_lt {span : Span} (h : span.start < span.stop) :
    ∀ s ∈ behind.map fun _ => span, s.start < span.stop := by
  intro s hs
  obtain ⟨-, -, rfl⟩ := Option.map_eq_some_iff.mp hs
  exact h

/-- A row of data behind a datum: the comments in this one do not belong there. -/
theorem laidRow_cons (hlt : ∀ s, S s → s.start < s.stop) {d : Datum} (inner : List Remark)
    (hrest : Arranged P d.span.stop rest b) (hd : d.Laid S (inner ++ remarks (behind.map fun _ => d.span) rest))
    (hinner : ∀ p c, Belongs inner p c → p < d.span.stop ∧ c.span.stop ≤ d.span.stop)
    (h : LaidRow S (remarks (behind.map fun _ => d.span) rest) (data rest)) :
    LaidRow S (inner ++ remarks (behind.map fun _ => d.span) rest) (d :: data rest) := by
  have hlater : ∀ p c, d.span.stop ≤ p → Belongs (inner ++ remarks (behind.map fun _ => d.span) rest) p c →
      Belongs (remarks (behind.map fun _ => d.span) rest) p c := by
    intro p c hp hc
    rcases hc.append with hc | hc
    · exact absurd (hinner p c hc).1 (not_lt.mpr hp)
    · exact hc
  have hstart : ∀ e ∈ data rest, d.span.stop ≤ e.span.start := fun e he =>
    (hrest.spans_between _ (span_mem_spans he)).2.1
  refine ⟨List.forall_mem_cons.mpr ⟨hd, fun e he => ?_⟩,
    .cons (fun e he => ⟨hstart e he, fun c hc => ?_, fun c hc => ?_⟩) ?_⟩
  · exact (h.laid e he).mono hlt fun p c hp _ => hlater p c ((hstart e he).trans hp.le)
  · rcases hc.append with hc | hc
    · exact (hinner _ c hc).2
    · rcases hrest.belongs_later hc with hle | ⟨hnil, -⟩
      · exact absurd (hlt _ hd.here) (not_lt.mpr hle)
      · rw [hnil] at he
        cases he
  · obtain ⟨o, hmem, -⟩ := hlater _ c (hstart e he) hc
    exact (hrest.remarks_between _ _ hmem).2.1
  · exact h.apart.imp_of_mem fun hd he h =>
      h.mono (fun c => hlater _ c (hstart _ hd)) (fun c => hlater _ c (hstart _ he))

/-- A row of data behind a comment: it belongs to the first of them, if there is any. -/
theorem laidRow_comment (hlt : ∀ s, S s → s.start < s.stop) (text : String) {span : Span}
    (hspan : span.start < span.stop) (hrest : Arranged P span.stop rest b) (hbehind : ∀ s ∈ behind, s.start < span.start)
    (h : LaidRow S (remarks behind rest) (data rest)) :
    LaidRow S (remarks behind (.comment text span :: rest)) (data rest) := by
  have hlater : ∀ d ∈ data rest, ∀ p c, d.span.start < p →
      Belongs (remarks behind (.comment text span :: rest)) p c → Belongs (remarks behind rest) p c := by
    intro d hd p c hp hc
    rcases hc.cons with ⟨-, o, howner, rfl⟩ | hc
    · rcases Option.or_eq_some_iff.mp howner with hnext | ⟨-, hbehind'⟩
      · exact absurd (hrest.next?_le hnext _ (span_mem_spans hd)) (not_le.mpr hp)
      · have hd := (hrest.spans_between _ (span_mem_spans hd)).2.1
        have := hbehind o hbehind'
        order
    · exact hc
  refine ⟨fun d hd => (h.laid d hd).mono hlt fun p c hp _ => hlater d hd p c hp, ?_⟩
  refine h.apart.imp_of_mem fun {d e} hd he hde => ⟨hde.apart, fun c hc => ?_, fun c hc => hde.second c ?_⟩
  · rcases hc.cons with ⟨rfl, -⟩ | hc
    · exact (hrest.spans_between _ (span_mem_spans hd)).2.1.trans (hlt _ (h.laid d hd).here).le
    · exact hde.first c hc
  · exact hlater d hd _ c ((hlt _ (h.laid d hd).here).trans_le hde.apart) hc

theorem laid_list (hlt : ∀ s, S s → s.start < s.stop) {span : Span} {low high : Position} (hS : S span)
    (hlow : span.start < low) (hhigh : high < span.stop) (hparts : Arranged P low parts high)
    (h : LaidRow S (remarks (some span) parts) (data parts)) :
    (Datum.list (data parts) span).Laid S (remarks (some span) parts) := by
  refine .list hS (fun d hd => ?_) h.apart (fun d hd c hc => ?_) h.laid
  · obtain ⟨-, hstart, hstop⟩ := hparts.spans_between _ (span_mem_spans hd)
    refine ⟨hlow.trans_le hstart, hstop.trans_lt hhigh, fun c hc => ?_⟩
    obtain ⟨o, hmem, -⟩ := hc
    obtain ⟨-, hstart, hstop⟩ := hparts.remarks_between _ _ hmem
    exact ⟨hlow.trans_le hstart, hstop.trans_lt hhigh⟩
  · -- Every datum in the list starts before the last of its parts ends.
    obtain ⟨ds, hds⟩ := List.getLast?_eq_some_iff.mp hd
    obtain ⟨o, hmem, hstart⟩ := hc
    rcases hparts.owner_cases hmem with ho | ⟨hnil, -⟩
    · obtain ⟨e, he, ho⟩ := Datum.mem_spansOf_iff.mp ho
      have hcovers := (h.laid e he).covers o ho
      have hproper := (hparts.spans_between o (Datum.mem_spansOf_iff.mpr ⟨e, he, ho⟩)).1
      have hstop := (hds ▸ h).stop_le_last hlt e (hds ▸ he)
      exact absurd hproper.2.2 (not_lt.mpr (hstart ▸ hcovers.2.trans hstop))
    · rw [hnil] at hds
      simp at hds

/-- The data of a text are laid out, with the comments that belong to them. -/
theorem laid (h : Arranged P a items b) (hlt : ∀ s, S s → s.start < s.stop) (hS : ∀ s ∈ spans items, S s)
    (hbehind : ∀ s ∈ behind, s.start < a) : LaidRow S (remarks behind items) (data items) := by
  induction h generalizing behind with
  | nil _ => exact ⟨by simp, .nil⟩
  | @atom a b rest text span _ hspan hrest ih =>
    obtain ⟨hhere, hS⟩ := List.forall_mem_cons.mp hS
    exact laidRow_cons hlt (d := .atom text span) [] hrest (.atom text hhere)
      (fun _ _ hc => absurd hc not_belongs_nil) (ih hS (forall_start_lt hspan.2.2))
  | @string a b rest text span _ hspan hrest ih =>
    obtain ⟨hhere, hS⟩ := List.forall_mem_cons.mp hS
    exact laidRow_cons hlt (d := .string text span) [] hrest (.string text hhere)
      (fun _ _ hc => absurd hc not_belongs_nil) (ih hS (forall_start_lt hspan.2.2))
  | @comment a b rest text span ha hspan hrest ih =>
    have hrow := ih hS fun s hs => (hbehind s hs).trans_le (ha.trans hspan.2.2.le)
    exact laidRow_comment hlt text hspan.2.2 hrest (fun s hs => (hbehind s hs).trans_le ha) hrow
  | @list a b low high parts rest span _ hspan hlow hhigh hparts hrest ihparts ihrest =>
    obtain ⟨hhere, hS⟩ := List.forall_mem_cons.mp hS
    obtain ⟨hSparts, hSrest⟩ := List.forall_mem_append.mp hS
    have hlist := laid_list hlt hhere hlow hhigh hparts (ihparts hSparts (by simpa using hlow))
    refine laidRow_cons hlt (d := .list (data parts) span) _ hrest (hlist.mono hlt fun p c hp hp' hc => ?_)
      (fun p c hc => ?_) (ihrest hSrest (forall_start_lt hspan.2.2))
    · rcases hc.append with hc | hc
      · exact hc
      · rcases hrest.belongs_later hc with hle | ⟨-, rfl⟩
        · exact absurd hp' (not_lt.mpr hle)
        · exact absurd hp (lt_irrefl _)
    · obtain ⟨o, hmem, rfl⟩ := hc
      refine ⟨?_, (hparts.remarks_between _ _ hmem).2.2.trans hhigh.le⟩
      rcases hparts.owner_cases hmem with ho | ⟨-, howner⟩
      · obtain ⟨hproper, -, hstop⟩ := hparts.spans_between o ho
        exact hproper.2.2.trans_le (hstop.trans hhigh.le)
      · cases howner
        exact hspan.2.2

end Item.Arranged

/-! ## Comments and their owners -/

/-- The comment stands before its owner, or it stands in it and no other datum does, or it stands behind it. The last
is not so at the top level, where nothing stands behind a comment. -/
def Item.Beside (behind : Option Span) (items : List Item) (c o : Span) : Prop :=
  c.stop ≤ o.start ∨
  (o.start < c.start ∧ c.stop < o.stop ∧ ∀ s ∈ spans items, s.start ≤ o.start ∨ o.stop ≤ s.start) ∨
  (o.stop ≤ c.start ∧ (behind = none → ∀ d ∈ data items, d.span ≠ o))

theorem Item.Beside.mono {behind behind' : Option Span} {items items' : List Item} {c o : Span}
    (h : Beside behind items c o)
    (hspans : ∀ s ∈ spans items', s ∈ spans items ∨ s.start ≤ o.start ∨ o.stop ≤ s.start)
    (hdata : behind' = none → ∀ d ∈ data items', behind = none ∧ d ∈ data items ∨ d.span ≠ o) :
    Beside behind' items' c o := by
  rcases h with hbefore | ⟨hstart, hstop, hnone⟩ | ⟨hbehind, hlast⟩
  · exact .inl hbefore
  · refine .inr (.inl ⟨hstart, hstop, fun s hs => ?_⟩)
    rcases hspans s hs with hs | hs
    · exact hnone s hs
    · exact hs
  · refine .inr (.inr ⟨hbehind, fun hnone d hd => ?_⟩)
    rcases hdata hnone d hd with ⟨hnone, hd⟩ | hne
    · exact hlast hnone d hd
    · exact hne

namespace Item.Arranged

variable {P : Position → Prop} {a b : Position} {items rest : List Item} {behind : Option Span}

theorem beside_cons {d : Datum} (hlt : d.span.start < d.span.stop) (hrest : Arranged P d.span.stop rest b)
    (hd : ∀ s ∈ d.spans, s.stop ≤ d.span.stop ∧ s.start < s.stop) {item : Item}
    (hdata : data (item :: rest) = d :: data rest) {c : Comment} {o : Span}
    (hmem : ⟨c, some o⟩ ∈ remarks (behind.map fun _ => d.span) rest)
    (ih : o ∈ spans rest → Beside (behind.map fun _ => d.span) rest c.span o) :
    Beside behind (item :: rest) c.span o := by
  rcases hrest.owner_cases hmem with ho | ⟨-, howner⟩
  · have hstart := (hrest.spans_between o ho).2.1
    refine (ih ho).mono (fun s hs => ?_) fun hnone e he => ?_
    · rw [spans, hdata] at hs
      rcases List.mem_append.mp hs with hs | hs
      · have := hd s hs
        exact .inr (.inl (by order))
      · exact .inl hs
    · rw [hdata] at he
      rcases List.mem_cons.mp he with rfl | he
      · refine .inr fun heq => ?_
        rw [← heq] at hstart
        exact absurd hlt (not_lt.mpr hstart)
      · exact .inl ⟨by rw [hnone, Option.map_none], he⟩
  · obtain ⟨s, hs, rfl⟩ := Option.map_eq_some_iff.mp howner
    refine .inr (.inr ⟨(hrest.remarks_between _ _ hmem).2.1, fun hnone => ?_⟩)
    rw [hnone] at hs
    cases hs

/-- A comment stands before its owner, or as the only thing in it, or behind it. -/
theorem beside (h : Arranged P a items b) {c : Comment} {o : Span} (hmem : ⟨c, some o⟩ ∈ remarks behind items)
    (ho : o ∈ spans items) : Beside behind items c.span o := by
  induction h generalizing behind with
  | nil _ => simp at ho
  | @atom a b rest text span _ hspan hrest ih =>
    exact beside_cons (d := .atom text span) hspan.2.2 hrest (by simp [Datum.spans, Datum.span, hspan.2.2]) rfl hmem
      (ih hmem)
  | @string a b rest text span _ hspan hrest ih =>
    exact beside_cons (d := .string text span) hspan.2.2 hrest (by simp [Datum.spans, Datum.span, hspan.2.2]) rfl hmem
      (ih hmem)
  | @comment a b rest text span _ _ hrest ih =>
    rcases List.mem_cons.mp hmem with hhere | hmem
    · obtain ⟨rfl, -⟩ := Remark.mk.inj hhere
      exact .inl (hrest.spans_between o ho).2.1
    · exact ih hmem ho
  | @list a b low high parts rest span _ hspan hlow hhigh hparts hrest ihparts ihrest =>
    rcases List.mem_append.mp hmem with hmem | hmem
    · obtain ⟨-, hstart, hstop⟩ := hparts.remarks_between _ _ hmem
      have hlater : ∀ s ∈ spans rest, span.stop ≤ s.start := fun s hs => (hrest.spans_between s hs).2.1
      rcases hparts.owner_cases hmem with ho | ⟨hnil, howner⟩
      · obtain ⟨hproper, hstart', hstop'⟩ := hparts.spans_between o ho
        refine (ihparts hmem ho).mono (fun s hs => ?_) fun _ d hd => .inr fun heq => ?_
        · rcases List.mem_cons.mp hs with rfl | hs
          · exact .inr (.inl (hlow.le.trans hstart'))
          · rcases List.mem_append.mp hs with hs | hs
            · exact .inl hs
            · exact .inr (.inr ((hstop'.trans hhigh.le).trans (hlater s hs)))
        · -- The owner is neither the list nor anything behind it.
          subst heq
          rcases List.mem_cons.mp hd with rfl | hd
          · exact absurd hlow (not_lt.mpr hstart')
          · have hspan' : Datum.span d ∈ spans rest := span_mem_spans hd
            have := hlater _ hspan'
            have := hproper.2.2
            order
      · cases howner
        refine .inr (.inl ⟨hlow.trans_le hstart, hstop.trans_lt hhigh, fun s hs => ?_⟩)
        have hnone : spans parts = [] := by rw [spans, hnil, Datum.spansOf]
        rw [spans_list, hnone, List.nil_append] at hs
        rcases List.mem_cons.mp hs with rfl | hs
        · exact .inl le_rfl
        · exact .inr (hlater s hs)
    · refine beside_cons (d := .list (data parts) span) hspan.2.2 hrest (fun s hs => ?_) rfl hmem (ihrest hmem)
      rcases List.mem_cons.mp hs with rfl | hs
      · exact ⟨le_rfl, hspan.2.2⟩
      · obtain ⟨hproper, -, hstop⟩ := hparts.spans_between s hs
        exact ⟨hstop.trans hhigh.le, hproper.2.2⟩

theorem stop_le_of_ownerless (h : Arranged P a items b) {c : Comment} (hmem : ⟨c, none⟩ ∈ remarks behind items) :
    behind = none ∧ ∀ d ∈ data items, d.span.stop ≤ c.span.start := by
  induction h generalizing behind with
  | nil _ => simp at hmem
  | atom _ _ _ hrest ih | string _ _ _ hrest ih =>
    obtain ⟨hnone, hd⟩ := ih hmem
    refine ⟨Option.map_eq_none_iff.mp hnone, List.forall_mem_cons.mpr ⟨?_, hd⟩⟩
    exact (hrest.remarks_between _ _ hmem).2.1
  | @comment a b rest text span _ _ _ ih =>
    rcases List.mem_cons.mp hmem with hhere | hmem
    · obtain ⟨-, howner⟩ := Remark.mk.inj hhere
      obtain ⟨hnext, hnone⟩ := Option.or_eq_none_iff.mp howner.symm
      refine ⟨hnone, fun d hd => ?_⟩
      rw [data_comment, next?_eq_none_iff.mp hnext] at hd
      cases hd
    · exact ih hmem
  | list _ _ _ _ _ hrest ihparts ihrest =>
    rcases List.mem_append.mp hmem with hmem | hmem
    · cases (ihparts hmem).1
    · obtain ⟨hnone, hd⟩ := ihrest hmem
      refine ⟨Option.map_eq_none_iff.mp hnone, List.forall_mem_cons.mpr ⟨?_, hd⟩⟩
      exact (hrest.remarks_between _ _ hmem).2.1

end Item.Arranged

/-! ## How far data reach -/

/-- The position is within the datum or its comments, or between them. -/
def Reaches (rs : List Remark) (s : Span) (p : Position) : Prop :=
  (s.start ≤ p ∨ ∃ c, Belongs rs s.start c ∧ c.span.start ≤ p) ∧
    (p ≤ s.stop ∨ ∃ c, Belongs rs s.start c ∧ p ≤ c.span.stop)

theorem Encloses.reaches {s t : Span} {p : Position} (h : Encloses rs s t) (hp : Reaches rs t p) :
    s.start < p ∧ p < s.stop := by
  obtain ⟨hlow, hhigh⟩ := hp
  constructor
  · rcases hlow with hlow | ⟨c, hc, hlow⟩
    · exact h.start.trans_le hlow
    · exact (h.comments c hc).1.trans_le hlow
  · rcases hhigh with hhigh | ⟨c, hc, hhigh⟩
    · exact hhigh.trans_lt h.stop
    · exact hhigh.trans_lt (h.comments c hc).2

theorem Precedes.not_reaches {s t : Span} {p : Position} (h : Precedes rs s t) (hp : s.stop ≠ p)
    (hs : Reaches rs s p) : ¬ Reaches rs t p := by
  rintro ⟨hlow, -⟩
  have hle : p ≤ s.stop := by
    rcases hs.2 with hhigh | ⟨c, hc, hhigh⟩
    · exact hhigh
    · exact hhigh.trans (h.first c hc)
  have hge : s.stop ≤ p := by
    rcases hlow with hlow | ⟨c, hc, hlow⟩
    · exact h.apart.trans hlow
    · exact (h.second c hc).trans hlow
  exact hp (le_antisymm hge hle)

theorem Datum.Laid.inside_of_reaches {d : Datum} (h : d.Laid S rs) {s : Span} (hs : s ∈ d.spans) {p : Position}
    (hp : Reaches rs s p) : s = d.span ∨ d.span.start < p ∧ p < d.span.stop := by
  induction h with
  | atom _ _ | string _ _ => exact .inl (List.mem_singleton.mp hs)
  | @list data span _ inside _ _ _ ih =>
    rcases List.mem_cons.mp hs with rfl | hs
    · exact .inl rfl
    · obtain ⟨d, hd, hs⟩ := Datum.mem_spansOf_iff.mp hs
      rcases ih d hd hs with rfl | ⟨hlow, hhigh⟩
      · exact .inr ((inside d hd).reaches hp)
      · exact .inr ⟨(inside d hd).start.trans hlow, hhigh.trans (inside d hd).stop⟩

/-- Two data that reach a position are the same, or one is in the other: the position is in the second, or the second
is in the first. -/
def Tangled (p : Position) (s t : Span) : Prop :=
  s = t ∨ (t.start < p ∧ p < t.stop) ∨ (s.start < t.start ∧ t.start < s.stop)

theorem LaidRow.tangled_of {data : List Datum} (h : LaidRow S rs data) {p : Position} (hp : ∀ s, S s → s.stop ≠ p)
    (hd : ∀ d ∈ data, ∀ s ∈ d.spans, ∀ t ∈ d.spans, Reaches rs s p → Reaches rs t p → Tangled p s t) :
    ∀ s ∈ Datum.spansOf data, ∀ t ∈ Datum.spansOf data, Reaches rs s p → Reaches rs t p → Tangled p s t := by
  intro s hs t ht hps hpt
  obtain ⟨d, hdmem, hs⟩ := Datum.mem_spansOf_iff.mp hs
  obtain ⟨e, hemem, ht⟩ := Datum.mem_spansOf_iff.mp ht
  have hreach : ∀ {d : Datum} {s : Span}, d ∈ data → s ∈ d.spans → Reaches rs s p → Reaches rs d.span p := by
    intro d s hd hs hps
    rcases (h.laid d hd).inside_of_reaches hs hps with rfl | ⟨hlow, hhigh⟩
    · exact hps
    · exact ⟨.inl hlow.le, .inl hhigh.le⟩
  have hpd := hreach hdmem hs hps
  have hpe := hreach hemem ht hpt
  rcases pairwise_cases h.apart hdmem hemem with rfl | hde | hed
  · exact hd d hdmem s hs t ht hps hpt
  · exact absurd hpe (hde.not_reaches (hp _ (h.laid d hdmem).here) hpd)
  · exact absurd hpd (hed.not_reaches (hp _ (h.laid e hemem).here) hpe)

theorem Datum.Laid.tangled {d : Datum} (h : d.Laid S rs) (hlt : ∀ s, S s → s.start < s.stop) {p : Position}
    (hp : ∀ s, S s → s.stop ≠ p) :
    ∀ s ∈ d.spans, ∀ t ∈ d.spans, Reaches rs s p → Reaches rs t p → Tangled p s t := by
  induction h with
  | atom _ _ | string _ _ =>
    intro s hs t ht _ _
    exact .inl ((List.mem_singleton.mp hs).trans (List.mem_singleton.mp ht).symm)
  | @list data span _ inside apart _ below ih =>
    intro s hs t ht hps hpt
    rcases List.mem_cons.mp hs with rfl | hs'
    · rcases List.mem_cons.mp ht with rfl | ht'
      · exact .inl rfl
      · obtain ⟨e, he, ht⟩ := Datum.mem_spansOf_iff.mp ht'
        have hcovers := (below e he).covers t ht
        refine .inr (.inr ⟨(inside e he).start.trans_le hcovers.1, ?_⟩)
        exact ((hlt t ((below e he).forall_spans t ht)).trans_le hcovers.2).trans (inside e he).stop
    · rcases List.mem_cons.mp ht with rfl | ht'
      · obtain ⟨d, hd, hs⟩ := Datum.mem_spansOf_iff.mp hs'
        rcases (below d hd).inside_of_reaches hs hps with rfl | ⟨hlow, hhigh⟩
        · exact .inr (.inl ((inside d hd).reaches hps))
        · exact .inr (.inl ⟨(inside d hd).start.trans hlow, hhigh.trans (inside d hd).stop⟩)
      · exact LaidRow.tangled_of ⟨below, apart⟩ hp ih s hs' t ht' hps hpt

end StructuralEditor.Scheme
