import StructuralEditor.Proofs.Scheme.Grammar
import StructuralEditor.Proofs.Scheme.Ownership

/-!
# Where the nodes of a draft stand

* `Apart` : one node stands before another, with the comments of both;
* `Draft.Laid` : the children of each node stand in order within it. A node is `plain` if it takes the stretch of a
  datum, `gathered` if it goes from its first child to its last one, and `vacant` if it is the list of no parameters;
* `Reads.laid` : so it is with the draft of a datum that is laid out, and it takes its stretch.
-/

namespace StructuralEditor.Scheme

variable {S : Span → Prop} {rs : List Remark}

/-! ## Stretches side by side -/

/-- One stretch stands before another, and so do the comments of the data there, if both hold text. -/
structure Apart (rs : List Remark) (s t : Span) : Prop where
  apart : s.stop ≤ t.start
  comments : s.start < s.stop → t.start < t.stop → (∀ c, Belongs rs s.start c → c.span.stop ≤ t.start) ∧
    ∀ d, Belongs rs t.start d → s.stop ≤ d.span.start ∧ ∀ c, Belongs rs s.start c → c.span.stop ≤ d.span.start

theorem Precedes.to_apart {s t : Span} (h : Precedes rs s t) : Apart rs s t := by
  refine ⟨h.apart, fun _ _ => ⟨fun c hc => (h.first c hc).trans h.apart, fun d hd => ⟨h.second d hd, fun c hc => ?_⟩⟩⟩
  exact (h.first c hc).trans (h.second d hd)

/-- What stands before a datum stands before all that starts with it. -/
theorem Precedes.of_start_eq {s t u : Span} (h : Precedes rs s t) (hstart : t.start = u.start) : Precedes rs s u :=
  ⟨hstart ▸ h.apart, h.first, hstart ▸ h.second⟩

/-- What lies within a datum stands before what the datum stands before. -/
theorem Encloses.to_apart {s t u : Span} (h : Encloses rs s t) (h' : Precedes rs s u) : Apart rs t u := by
  refine ⟨h.stop.le.trans h'.apart, fun _ _ => ⟨fun c hc => ?_, fun d hd => ⟨?_, fun c hc => ?_⟩⟩⟩
  · exact (h.comments c hc).2.le.trans h'.apart
  · exact h.stop.le.trans (h'.second d hd)
  · exact (h.comments c hc).2.le.trans (h'.second d hd)

theorem Encloses.trans {s t u : Span} (h : Encloses rs s t) (h' : Encloses rs t u) : Encloses rs s u := by
  refine ⟨h.start.trans h'.start, h'.stop.trans h.stop, fun c hc => ?_⟩
  obtain ⟨hstart, hstop⟩ := h'.comments c hc
  exact ⟨h.start.trans hstart, hstop.trans h.stop⟩

/-- What stands before another does not reach a position that the other one reaches. -/
theorem Apart.not_reaches {s t : Span} {p : Position} (h : Apart rs s t)
    (hs : s.start < s.stop) (ht : t.start < t.stop) (hstop : s.stop ≠ p)
    (hcomment : ∀ c, Belongs rs s.start c → c.span.stop ≠ p) (hp : Reaches rs s p) : ¬ Reaches rs t p := by
  rintro ⟨hlow, -⟩
  obtain ⟨hfirst, hsecond⟩ := h.comments hs ht
  rcases hp.2 with hhigh | ⟨c, hc, hhigh⟩
  · refine hstop (le_antisymm ?_ hhigh)
    rcases hlow with hlow | ⟨d, hd, hlow⟩
    · exact h.apart.trans hlow
    · exact (hsecond d hd).1.trans hlow
  · refine hcomment c hc (le_antisymm ?_ hhigh)
    rcases hlow with hlow | ⟨d, hd, hlow⟩
    · exact (hfirst c hc).trans hlow
    · exact ((hsecond d hd).2 c hc).trans hlow

/-! ## Drafts -/

/-- No child is empty but the parameters of a function definition, behind its name. -/
def Draft.Filled (kind : Kind Draft) : Prop :=
  (∀ child ∈ kind.children, child.span.start < child.span.stop) ∨
  ∃ name parameters body, kind = .functionDefinition name parameters body ∧
    name.span.start < name.span.stop ∧ body.span.start < body.span.stop ∧ name.kind.children = [] ∧
    (parameters.span.start = parameters.span.stop → parameters.span.start = name.span.stop)

/-- The children of each node stand in order within it, with their comments. -/
inductive Draft.Laid (S : Span → Prop) (rs : List Remark) : Draft → Prop
  /-- The stretch of a datum. -/
  | plain {span : Span} {label : String} {kind : Kind Draft} (here : S span)
    (inside : ∀ child ∈ kind.children, Encloses rs span child.span)
    (apart : kind.children.Pairwise fun d e => Apart rs d.span e.span) (filled : Draft.Filled kind)
    (below : ∀ child ∈ kind.children, Laid S rs child) : Laid S rs (.mk span label kind)
  /-- The stretch from the first child to the last one. -/
  | gathered {span : Span} {label : String} {kind : Kind Draft} {first : Draft} {rest : List Draft}
    (hchildren : kind.children = first :: rest) (hstart : first.span.start = span.start)
    (hstop : ∃ child ∈ kind.children, child.span.stop = span.stop)
    (covers : ∀ child ∈ kind.children, span.Covers child.span)
    (filled : ∀ child ∈ kind.children, child.span.start < child.span.stop)
    (apart : kind.children.Pairwise fun d e => Apart rs d.span e.span)
    (below : ∀ child ∈ kind.children, Laid S rs child) : Laid S rs (.mk span label kind)
  /-- The list of no parameters behind a name. -/
  | vacant {s : Span} (here : S s) (free : ∀ c, ¬ Belongs rs s.stop c) (label role : String) :
    Laid S rs (.mk (Span.empty s.stop) label (.identifiers role []))

theorem Draft.children_mk (span : Span) (label : String) (kind : Kind Draft) :
    (Draft.mk span label kind).kind.children = kind.children := rfl

theorem Draft.span_ofAtom (text : String) (span : Span) : (ofAtom text span).span = span := by
  unfold ofAtom
  split <;> rfl

theorem Draft.children_ofAtom (text : String) (span : Span) : (ofAtom text span).kind.children = [] := by
  unfold ofAtom
  split <;> rfl

theorem Draft.laid_leaf {d : Draft} (hchildren : d.kind.children = []) (here : S d.span) : d.Laid S rs := by
  obtain ⟨span, label, kind⟩ := d
  have hnone : ∀ child, child ∉ kind.children := by
    intro child hmem
    rw [Draft.children_mk] at hchildren
    rw [hchildren] at hmem
    cases hmem
  refine .plain here (fun child hmem => absurd hmem (hnone child)) ?_ (.inl fun child hmem => absurd hmem (hnone child))
    fun child hmem => absurd hmem (hnone child)
  rw [Draft.children_mk] at hchildren
  rw [hchildren]
  exact .nil

/-- The draft is laid out and takes the stretch of the datum. -/
def Matches (S : Span → Prop) (rs : List Remark) (p : Datum × Draft) : Prop := p.2.Laid S rs ∧ p.2.span = p.1.span

theorem matches_ofAtom (name : String × Span) (h : (Datum.ofName name).Laid S rs) :
    Matches S rs (Datum.ofName name, Draft.ofAtom name.1 name.2) :=
  ⟨Draft.laid_leaf (Draft.children_ofAtom ..) (by rw [Draft.span_ofAtom]; exact h.here), Draft.span_ofAtom ..⟩

section Rows

variable {data : List Datum} {span : Span} {ps : List (Datum × Draft)} {kind : Kind Draft}

theorem map_span_of_matches (hps : ∀ p ∈ ps, Matches S rs p) :
    (ps.map Prod.snd).map Draft.span = (ps.map Prod.fst).map Datum.span := by
  rw [List.map_map, List.map_map]
  exact List.map_congr_left fun p hp => (hps p hp).2

theorem pairwise_of_matches {R : Span → Span → Prop} (hps : ∀ p ∈ ps, Matches S rs p)
    (h : (ps.map Prod.fst).Pairwise fun d e => R d.span e.span) :
    (ps.map Prod.snd).Pairwise fun d e => R d.span e.span := by
  rw [← List.pairwise_map (f := Draft.span), map_span_of_matches hps, List.pairwise_map]
  exact h

/-- What holds of the stretches of data holds of those of their drafts. -/
theorem forall_span_of_matches {Q : Span → Prop} (hps : ∀ p ∈ ps, Matches S rs p)
    (h : ∀ d ∈ ps.map Prod.fst, Q d.span) : ∀ d ∈ ps.map Prod.snd, Q d.span := by
  intro d hd
  obtain ⟨p, hp, rfl⟩ := List.mem_map.mp hd
  rw [(hps p hp).2]
  exact h p.1 (List.mem_map_of_mem hp)

theorem forall_laid_of_matches (hps : ∀ p ∈ ps, Matches S rs p) : ∀ d ∈ ps.map Prod.snd, d.Laid S rs := by
  intro d hd
  obtain ⟨p, hp, rfl⟩ := List.mem_map.mp hd
  exact (hps p hp).1

/-- The parts of a list that become the children of its node keep their order. -/
theorem Datum.Laid.plain (h : (Datum.list data span).Laid S rs) (hlt : ∀ s, S s → s.start < s.stop)
    (hsub : (ps.map Prod.fst).Sublist data) (hps : ∀ p ∈ ps, Matches S rs p)
    (hchildren : kind.children = ps.map Prod.snd) (label : String) : (Draft.mk span label kind).Laid S rs := by
  cases h with
  | list here inside apart _ below =>
    refine .plain here ?_ ?_ (.inl ?_) ?_
    · rw [hchildren]
      exact forall_span_of_matches hps fun d hd => inside d (hsub.subset hd)
    · rw [hchildren]
      exact (pairwise_of_matches hps (apart.sublist hsub)).imp Precedes.to_apart
    · rw [hchildren]
      exact forall_span_of_matches (Q := fun s => s.start < s.stop) hps fun d hd =>
        hlt _ (below d (hsub.subset hd)).here
    · rw [hchildren]
      exact forall_laid_of_matches hps

theorem LaidRow.spanOfAll_eq {first : Datum} {rest : List Datum} (h : LaidRow S rs (first :: rest))
    (hlt : ∀ s, S s → s.start < s.stop) : ∃ last ∈ first :: rest,
      Datum.spanOfAll first rest = ⟨first.span.start, last.span.stop⟩ ∧
      ∀ d ∈ first :: rest, first.span.start ≤ d.span.start ∧ d.span.stop ≤ last.span.stop := by
  have hstart : ∀ d ∈ first :: rest, first.span.start ≤ d.span.start := by
    refine List.forall_mem_cons.mpr ⟨le_rfl, fun d hd => ?_⟩
    have hle := ((List.pairwise_cons.mp h.apart).1 d hd).apart
    exact (hlt _ (h.laid first List.mem_cons_self).here).le.trans hle
  have hlast := List.getLast_mem (List.cons_ne_nil first rest)
  have hstop : ∀ d ∈ first :: rest, d.span.stop ≤ ((first :: rest).getLast (by simp)).span.stop := by
    have hsplit := List.dropLast_append_getLast (List.cons_ne_nil first rest)
    exact fun d hd => (hsplit.symm ▸ h).stop_le_last hlt d (hsplit.symm ▸ hd)
  refine ⟨_, hlast, ?_, fun d hd => ⟨hstart d hd, hstop d hd⟩⟩
  exact Span.union_of_le (hstart _ hlast) (hstop _ List.mem_cons_self)

theorem LaidRow.gathered {first : Datum} {rest : List Datum} (h : LaidRow S rs (first :: rest))
    (hlt : ∀ s, S s → s.start < s.stop) (hdata : ps.map Prod.fst = first :: rest) (hps : ∀ p ∈ ps, Matches S rs p)
    (hchildren : kind.children = ps.map Prod.snd) (label : String) :
    (Draft.mk (Datum.spanOfAll first rest) label kind).Laid S rs := by
  obtain ⟨last, hlast, hspan, hends⟩ := h.spanOfAll_eq hlt
  rw [hspan]
  rw [← hdata] at hlast hends
  have hapart := h.apart
  have hlaid := h.laid
  rw [← hdata] at hapart hlaid
  have hcons : ∃ p more, ps = p :: more ∧ p.1 = first := by
    obtain ⟨p, more, rfl, hp, -⟩ := List.map_eq_cons_iff.mp hdata
    exact ⟨p, more, rfl, hp⟩
  obtain ⟨p, more, hcons, rfl⟩ := hcons
  have hchildren' : kind.children = p.2 :: more.map Prod.snd := by rw [hchildren, hcons, List.map_cons]
  refine .gathered hchildren' ?_ ?_ ?_ ?_ ?_ ?_
  · rw [(hps p (hcons ▸ List.mem_cons_self)).2]
  · obtain ⟨q, hq, rfl⟩ := List.mem_map.mp hlast
    rw [hchildren]
    exact ⟨q.2, List.mem_map_of_mem hq, by rw [(hps q hq).2]⟩
  · rw [hchildren]
    exact forall_span_of_matches hps hends
  · rw [hchildren]
    exact forall_span_of_matches (Q := fun s => s.start < s.stop) hps fun d hd => hlt _ (hlaid d hd).here
  · rw [hchildren]
    exact (pairwise_of_matches hps hapart).imp Precedes.to_apart
  · rw [hchildren]
    exact forall_laid_of_matches hps

/-- A row within a stretch lies there from its first datum to its last one. -/
theorem LaidRow.encloses {first : Datum} {rest : List Datum} (h : LaidRow S rs (first :: rest))
    (hlt : ∀ s, S s → s.start < s.stop) {s : Span} (hs : ∀ d ∈ first :: rest, Encloses rs s d.span) :
    Encloses rs s (Datum.spanOfAll first rest) := by
  obtain ⟨last, hlast, hspan, -⟩ := h.spanOfAll_eq hlt
  have hfirst := hs first List.mem_cons_self
  rw [hspan]
  exact ⟨hfirst.start, (hs last hlast).stop, hfirst.comments⟩

end Rows

/-! ## Names -/

section Names

variable {names : List (String × Span)}

theorem map_fst_names (names : List (String × Span)) :
    (names.map fun name => (Datum.ofName name, Draft.ofAtom name.1 name.2)).map Prod.fst = names.map Datum.ofName := by
  rw [List.map_map]
  rfl

theorem children_ofNames (role : String) (names : List (String × Span)) :
    (Kind.identifiers role (names.map fun (name, span) => Draft.ofAtom name span)).children =
      (names.map fun name => (Datum.ofName name, Draft.ofAtom name.1 name.2)).map Prod.snd := by
  rw [List.map_map]
  exact List.append_nil _

theorem matches_names (h : ∀ d ∈ names.map Datum.ofName, d.Laid S rs) :
    ∀ p ∈ names.map fun name => (Datum.ofName name, Draft.ofAtom name.1 name.2), Matches S rs p := by
  intro p hp
  obtain ⟨name, hname, rfl⟩ := List.mem_map.mp hp
  exact matches_ofAtom name (h _ (List.mem_map_of_mem hname))

theorem laid_ofNames (hlt : ∀ s, S s → s.start < s.stop) (role : String) {span : Span}
    (h : (Datum.list (names.map Datum.ofName) span).Laid S rs) : (Draft.ofNames role span names).Laid S rs := by
  refine h.plain hlt ?_ (matches_names ?_) (children_ofNames role names) _
  · rw [map_fst_names]
  · cases h with
    | list _ _ _ _ below => exact below

end Names

/-! ## Function definitions -/

/-- The parameters in the header of a function lie within it behind the name, as a list of their own; without any, they
are empty where the name ends. -/
theorem laid_parameters (hlt : ∀ s, S s → s.start < s.stop) {name : String} {nameSpan headerSpan : Span}
    {names : List (String × Span)}
    (h : (Datum.list (.atom name nameSpan :: names.map Datum.ofName) headerSpan).Laid S rs) :
    (Draft.ofNames "parameters" (Datum.parametersSpan nameSpan (names.map Datum.ofName)) names).Laid S rs ∧
    Encloses rs headerSpan (Datum.parametersSpan nameSpan (names.map Datum.ofName)) ∧
    Apart rs nameSpan (Datum.parametersSpan nameSpan (names.map Datum.ofName)) ∧
    ((Datum.parametersSpan nameSpan (names.map Datum.ofName)).start =
        (Datum.parametersSpan nameSpan (names.map Datum.ofName)).stop →
      (Datum.parametersSpan nameSpan (names.map Datum.ofName)).start = nameSpan.stop) := by
  cases h with
  | list _ inside apart free below =>
    obtain ⟨hname, hinside⟩ := List.forall_mem_cons.mp inside
    obtain ⟨hbefore, hrow⟩ := List.pairwise_cons.mp apart
    obtain ⟨hatom, hlaid⟩ := List.forall_mem_cons.mp below
    cases names with
    | nil =>
      have hfree : ∀ c, ¬ Belongs rs nameSpan.stop c := free (.atom name nameSpan) rfl
      have hlt' : nameSpan.start < nameSpan.stop := hlt _ hatom.here
      refine ⟨.vacant hatom.here hfree _ _, ⟨hname.start.trans hlt', hname.stop, fun c hc => absurd hc (hfree c)⟩, ?_,
        fun _ => rfl⟩
      exact ⟨le_rfl, fun _ hempty => absurd hempty (lt_irrefl _)⟩
    | cons first rest =>
      have hrow : LaidRow S rs (Datum.ofName first :: rest.map Datum.ofName) := ⟨hlaid, hrow⟩
      refine ⟨hrow.gathered hlt (map_fst_names (first :: rest)) (matches_names hlaid) (children_ofNames _ _) _,
        hrow.encloses hlt hinside, ?_, fun hempty => absurd hempty (ne_of_lt ?_)⟩
      all_goals obtain ⟨last, -, hspan, hwithin⟩ := hrow.spanOfAll_eq hlt
      · refine ((hbefore _ List.mem_cons_self).of_start_eq ?_).to_apart
        show _ = (Datum.spanOfAll (Datum.ofName first) (rest.map Datum.ofName)).start
        rw [hspan]
      · show (Datum.spanOfAll (Datum.ofName first) (rest.map Datum.ofName)).start <
          (Datum.spanOfAll (Datum.ofName first) (rest.map Datum.ofName)).stop
        rw [hspan]
        exact (hlt _ (hlaid _ List.mem_cons_self).here).trans_le (hwithin _ List.mem_cons_self).2

/-- A function definition has the name and the parameters out of its header, and then the body. -/
theorem laid_functionDefinition (hlt : ∀ s, S s → s.start < s.stop) {head body : Datum} {value : Draft} {name : String}
    {nameSpan headerSpan span : Span} {names : List (String × Span)}
    (h : (Datum.list [head, .list (.atom name nameSpan :: names.map Datum.ofName) headerSpan, body] span).Laid S rs)
    (hvalue : Matches S rs (body, value)) (label : String) :
    (Draft.mk span label (.functionDefinition (Draft.ofAtom name nameSpan)
      (Draft.ofNames "parameters" (Datum.parametersSpan nameSpan (names.map Datum.ofName)) names)
      value)).Laid S rs := by
  cases h with
  | list here inside apart _ below =>
    have hheader := below (.list (.atom name nameSpan :: names.map Datum.ofName) headerSpan) (by simp)
    have hbody : Precedes rs headerSpan body.span :=
      (List.pairwise_cons.mp (List.pairwise_cons.mp apart).2).1 body List.mem_cons_self
    have hinside : Encloses rs span headerSpan :=
      inside (.list (.atom name nameSpan :: names.map Datum.ofName) headerSpan) (by simp)
    obtain ⟨hparameters, hencloses, hapart, hempty⟩ := laid_parameters hlt hheader
    have hname : Encloses rs headerSpan nameSpan ∧ S nameSpan := by
      cases hheader with
      | list _ inside' _ _ below' =>
        exact ⟨inside' (.atom name nameSpan) List.mem_cons_self, (below' (.atom name nameSpan) List.mem_cons_self).here⟩
    have hvalueSpan : value.span = body.span := hvalue.2
    have hchildren : (Kind.functionDefinition (Draft.ofAtom name nameSpan) (Draft.ofNames "parameters"
        (Datum.parametersSpan nameSpan (names.map Datum.ofName)) names) value).children = [Draft.ofAtom name nameSpan,
        Draft.ofNames "parameters" (Datum.parametersSpan nameSpan (names.map Datum.ofName)) names, value] := rfl
    refine .plain here ?_ ?_ (.inr ⟨_, _, _, rfl, ?_, ?_, Draft.children_ofAtom .., ?_⟩) ?_
    · rw [hchildren]
      simp only [List.forall_mem_cons, List.not_mem_nil, false_implies, implies_true, and_true]
      refine ⟨?_, hinside.trans hencloses, ?_⟩
      · rw [Draft.span_ofAtom]
        exact hinside.trans hname.1
      · rw [hvalueSpan]
        exact inside body (by simp)
    · rw [hchildren]
      simp only [List.pairwise_cons, List.forall_mem_cons, List.not_mem_nil, false_implies, implies_true, and_true,
        List.Pairwise.nil, Draft.span_ofAtom, hvalueSpan]
      exact ⟨⟨hapart, hname.1.to_apart hbody⟩, hencloses.to_apart hbody⟩
    · rw [Draft.span_ofAtom]
      exact hlt _ hname.2
    · rw [hvalueSpan]
      exact hlt _ (below body (by simp)).here
    · rw [Draft.span_ofAtom]
      exact hempty
    · rw [hchildren]
      simp only [List.forall_mem_cons, List.not_mem_nil, false_implies, implies_true, and_true]
      refine ⟨Draft.laid_leaf (Draft.children_ofAtom ..) ?_, hparameters, hvalue.1⟩
      rw [Draft.span_ofAtom]
      exact hname.2

/-! ## Guarded forms -/

/-- A guarded form has the predicate, and then all that follows it as one node. -/
theorem laid_guarded (hlt : ∀ s, S s → s.start < s.stop) {head predicate : Datum} {predicate' : Draft}
    {first : Datum × Draft} {others : List (Datum × Draft)} {span : Span}
    (h : (Datum.list (head :: predicate :: first.1 :: others.map Prod.fst) span).Laid S rs)
    (hpredicate : Matches S rs (predicate, predicate')) (hbody : ∀ p ∈ first :: others, Matches S rs p)
    (word label label' : String) :
    (Draft.mk span label (.whenForm word predicate' (.mk (Datum.spanOfAll first.1 (others.map Prod.fst)) label'
      (.sequence "begin" (first.2 :: others.map Prod.snd))))).Laid S rs := by
  cases h with
  | list here inside apart _ below =>
    have hapart := List.pairwise_cons.mp (List.pairwise_cons.mp apart).2
    have hrow : LaidRow S rs (first.1 :: others.map Prod.fst) := by
      refine ⟨fun d hd => below d ?_, hapart.2⟩
      exact List.mem_cons_of_mem _ (List.mem_cons_of_mem _ hd)
    have hgathered := hrow.gathered hlt (show (first :: others).map Prod.fst = _ from rfl) hbody
      (show (Kind.sequence "begin" (first.2 :: others.map Prod.snd)).children = _ from List.append_nil _) label'
    have hencloses : Encloses rs span (Datum.spanOfAll first.1 (others.map Prod.fst)) :=
      hrow.encloses hlt fun d hd => inside d (List.mem_cons_of_mem _ (List.mem_cons_of_mem _ hd))
    obtain ⟨last, hlast, hspan, hends⟩ := hrow.spanOfAll_eq hlt
    have hpredicateSpan : predicate'.span = predicate.span := hpredicate.2
    refine .plain here ?_ ?_ (.inl ?_) ?_
    · show ∀ child ∈ [predicate', Draft.mk _ label' _], Encloses rs span child.span
      simp only [List.forall_mem_cons, List.not_mem_nil, false_implies, implies_true, and_true]
      refine ⟨?_, hencloses⟩
      rw [hpredicateSpan]
      exact inside predicate (by simp)
    · show [predicate', Draft.mk _ label' _].Pairwise _
      simp only [List.pairwise_cons, List.forall_mem_cons, List.not_mem_nil, false_implies, implies_true, and_true,
        List.Pairwise.nil, hpredicateSpan]
      refine ((hapart.1 first.1 List.mem_cons_self).of_start_eq ?_).to_apart
      show _ = (Datum.spanOfAll first.1 (others.map Prod.fst)).start
      rw [hspan]
    · show ∀ child ∈ [predicate', Draft.mk (Datum.spanOfAll first.1 (others.map Prod.fst)) label' _],
        child.span.start < child.span.stop
      simp only [List.forall_mem_cons, List.not_mem_nil, false_implies, implies_true, and_true, hpredicateSpan]
      refine ⟨hlt _ (below predicate (by simp)).here, ?_⟩
      show (Datum.spanOfAll first.1 (others.map Prod.fst)).start < (Datum.spanOfAll first.1 (others.map Prod.fst)).stop
      rw [hspan]
      exact (hlt _ (hrow.laid _ List.mem_cons_self).here).trans_le (hends _ List.mem_cons_self).2
    · show ∀ child ∈ [predicate', Draft.mk _ label' _], child.Laid S rs
      simp only [List.forall_mem_cons, List.not_mem_nil, false_implies, implies_true, and_true]
      exact ⟨hpredicate.1, hgathered⟩

/-! ## Readings -/

theorem parts_of_laid {data : List Datum} {span : Span} (h : (Datum.list data span).Laid S rs) :
    ∀ d ∈ data, d.Laid S rs := by
  cases h with
  | list _ _ _ _ below => exact below

/-- The draft of a datum that is laid out is laid out, and takes its stretch. -/
theorem Reads.laid (hlt : ∀ s, S s → s.start < s.stop) {slot : Slot} {datum : Datum} {d : Draft}
    (h : Reads slot datum d) (hlaid : datum.Laid S rs) : Matches S rs (datum, d) := by
  induction h with
  | atom text span => exact matches_ofAtom (text, span) hlaid
  | string text span => exact ⟨Draft.laid_leaf rfl hlaid.here, rfl⟩
  | emptyList span => exact ⟨Draft.laid_leaf rfl hlaid.here, rfl⟩
  | @application head function arguments span _ _ _ ihhead ih =>
    have hps : ∀ p ∈ (head, function) :: arguments, Matches S rs p :=
      List.forall_mem_cons.mpr ⟨ihhead (parts_of_laid hlaid _ List.mem_cons_self),
        fun p hp => ih p hp (parts_of_laid hlaid _ (by simp [List.mem_map_of_mem hp]))⟩
    exact ⟨hlaid.plain hlt (List.Sublist.refl _) hps (by simp [Kind.children, Kind.fields, Field.nodes]) _, rfl⟩
  | @variableDefinition head body value name nameSpan span _ _ ih =>
    have hname := matches_ofAtom (name, nameSpan) (parts_of_laid hlaid _ (by simp [Datum.ofName]))
    have hps : ∀ p ∈ [(Datum.atom name nameSpan, Draft.ofAtom name nameSpan), (body, value)], Matches S rs p := by
      simpa using ⟨hname, ih (parts_of_laid hlaid _ (by simp))⟩
    exact ⟨hlaid.plain hlt (List.sublist_cons_self _ _) hps rfl _, rfl⟩
  | functionDefinition name nameSpan headerSpan span parameters _ _ ih =>
    exact ⟨laid_functionDefinition hlt hlaid (ih (parts_of_laid hlaid _ (by simp))) _, rfl⟩
  | structDefinition name nameSpan fieldsSpan span fields _ =>
    have hname := matches_ofAtom (name, nameSpan) (parts_of_laid hlaid _ (by simp [Datum.ofName]))
    have hfields := laid_ofNames hlt "fields"
      (parts_of_laid hlaid (.list (fields.map Datum.ofName) fieldsSpan) (by simp))
    have hps : ∀ p ∈ [(Datum.atom name nameSpan, Draft.ofAtom name nameSpan),
        (Datum.list (fields.map Datum.ofName) fieldsSpan, Draft.ofNames "fields" fieldsSpan fields)],
        Matches S rs p := by
      simpa using ⟨hname, hfields, rfl⟩
    exact ⟨hlaid.plain hlt (List.sublist_cons_self _ _) hps rfl _, rfl⟩
  | @lambda head body value parametersSpan span parameters _ _ ih =>
    have hnames := laid_ofNames hlt "parameters"
      (parts_of_laid hlaid (.list (parameters.map Datum.ofName) parametersSpan) (by simp))
    have hps : ∀ p ∈ [(Datum.list (parameters.map Datum.ofName) parametersSpan,
        Draft.ofNames "parameters" parametersSpan parameters), (body, value)], Matches S rs p := by
      simpa using ⟨⟨hnames, rfl⟩, ih (parts_of_laid hlaid _ (by simp))⟩
    exact ⟨hlaid.plain hlt (List.sublist_cons_self _ _) hps rfl _, rfl⟩
  | @ifElse head test consequent alternative test' consequent' alternative' span _ _ _ _ ihtest ihconsequent
      ihalternative =>
    have hps : ∀ p ∈ [(test, test'), (consequent, consequent'), (alternative, alternative')], Matches S rs p := by
      simpa using ⟨ihtest (parts_of_laid hlaid _ (by simp)), ihconsequent (parts_of_laid hlaid _ (by simp)),
        ihalternative (parts_of_laid hlaid _ (by simp))⟩
    exact ⟨hlaid.plain hlt (List.sublist_cons_self _ _) hps rfl _, rfl⟩
  | @conditional head clauses span _ _ _ ih =>
    have hps : ∀ p ∈ clauses, Matches S rs p := fun p hp =>
      ih p hp (parts_of_laid hlaid _ (by simp [List.mem_map_of_mem hp]))
    exact ⟨hlaid.plain hlt (List.sublist_cons_self _ _) hps (List.append_nil _) _, rfl⟩
  | @clause test test' consequents span _ _ _ ihtest ih =>
    have hps : ∀ p ∈ (test, test') :: consequents, Matches S rs p :=
      List.forall_mem_cons.mpr ⟨ihtest (parts_of_laid hlaid _ List.mem_cons_self),
        fun p hp => ih p hp (parts_of_laid hlaid _ (by simp [List.mem_map_of_mem hp]))⟩
    exact ⟨hlaid.plain hlt (List.Sublist.refl _) hps (by simp [Kind.children, Kind.fields, Field.nodes]) _, rfl⟩
  | @begin head expressions span _ _ _ ih =>
    have hps : ∀ p ∈ expressions, Matches S rs p := fun p hp =>
      ih p hp (parts_of_laid hlaid _ (by simp [List.mem_map_of_mem hp]))
    exact ⟨hlaid.plain hlt (List.sublist_cons_self _ _) hps (List.append_nil _) _, rfl⟩
  | @guarded variety head predicate predicate' first others span _ _ _ ihpredicate ih =>
    refine ⟨laid_guarded hlt hlaid (ihpredicate (parts_of_laid hlaid _ (by simp))) (fun p hp => ih p hp ?_) _ _ _, rfl⟩
    rcases List.mem_cons.mp hp with rfl | hp
    · exact parts_of_laid hlaid _ (by simp)
    · exact parts_of_laid hlaid _ (by simp [List.mem_map_of_mem hp])
  | @letForm variety head body body' bindings bindingsSpan span _ _ _ ih ihbody =>
    have hlist := parts_of_laid hlaid (.list (bindings.map Prod.fst) bindingsSpan) (by simp)
    have hbindings : ∀ p ∈ bindings, Matches S rs p := fun p hp =>
      ih p hp (parts_of_laid hlist _ (List.mem_map_of_mem hp))
    have hsequence := hlist.plain hlt (List.Sublist.refl _) hbindings
      (show (Kind.sequence "bindings" (bindings.map Prod.snd)).children = _ from List.append_nil _)
      (Text.pluralize "binding" bindings.length)
    have hps : ∀ p ∈ [(Datum.list (bindings.map Prod.fst) bindingsSpan, Draft.mk bindingsSpan
        (Text.pluralize "binding" bindings.length) (.sequence "bindings" (bindings.map Prod.snd))), (body, body')],
        Matches S rs p := by
      simpa using ⟨⟨hsequence, rfl⟩, ihbody (parts_of_laid hlaid _ (by simp))⟩
    exact ⟨hlaid.plain hlt (List.sublist_cons_self _ _) hps rfl _, rfl⟩
  | @binding value value' name nameSpan span _ ih =>
    have hname := matches_ofAtom (name, nameSpan) (parts_of_laid hlaid _ (by simp [Datum.ofName]))
    have hps : ∀ p ∈ [(Datum.atom name nameSpan, Draft.ofAtom name nameSpan), (value, value')], Matches S rs p := by
      simpa using ⟨hname, ih (parts_of_laid hlaid _ (by simp))⟩
    exact ⟨hlaid.plain hlt (List.Sublist.refl _) hps rfl _, rfl⟩

end StructuralEditor.Scheme
