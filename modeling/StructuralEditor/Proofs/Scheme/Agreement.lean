import StructuralEditor.Proofs.Scheme.Beginnings

/-!
# Data that agree up to a position

* `Datum.Agree` : data that are the same up to a position, where lists may be open that go on differently;
* `Datum.Meets`, `Datum.Agree.exists_getElem?` : two such data in one place, as there are wherever one starts before the
  position;
* `Datum.Agree.eq_or_last` : one row of the two goes on behind the position, or they are the same;
* `Item.Pending`, `Item.Closes.agree` : what is read after common tokens closes the same open lists;
* `exists_agreement` : texts that begin alike, up to the end of a datum, are read as data that agree up to there.
-/

namespace StructuralEditor

namespace Span

def EndsBy (q : Position) (s : Span) : Prop := s.start < s.stop ∧ s.stop ≤ q

def StartsFrom (q : Position) (s : Span) : Prop := q ≤ s.start ∧ s.start < s.stop

theorem StartsFrom.lt_stop {q : Position} {s : Span} (h : s.StartsFrom q) : q < s.stop := h.1.trans_lt h.2

theorem EndsBy.union {q : Position} {s t : Span} (hs : s.EndsBy q) (ht : t.EndsBy q) : (s.union t).EndsBy q :=
  ⟨(min_le_left _ _).trans_lt (hs.1.trans_le (le_max_left _ _)), max_le hs.2 ht.2⟩

theorem StartsFrom.union {q : Position} {s t : Span} (hs : s.StartsFrom q) (ht : t.StartsFrom q) :
    (s.union t).StartsFrom q :=
  ⟨le_min hs.1 ht.1, (min_le_left _ _).trans_lt (hs.2.trans_le (le_max_left _ _))⟩

theorem EndsBy.union_of_startsFrom {q : Position} {s t : Span} (hs : s.EndsBy q) (ht : t.StartsFrom q) :
    s.union t = ⟨s.start, t.stop⟩ :=
  union_of_le (hs.1.le.trans (hs.2.trans ht.1)) (hs.2.trans ht.lt_stop.le)

end Span

namespace Scheme

/-! ## Rows of data -/

namespace Datum

variable {q : Position}

/-- Everything in the data starts behind the position. -/
def Behind (q : Position) (data : List Datum) : Prop :=
  ∀ s ∈ spansOf data, s.StartsFrom q

theorem Behind.span {data : List Datum} (h : Behind q data) {d : Datum} (hd : d ∈ data) : d.span.StartsFrom q :=
  h d.span (mem_spansOf_iff.mpr ⟨d, hd, span_mem_spans d⟩)

/-- Up to the position the data are the same. A list that goes on there has something in it that starts before the
position, and is closed behind it. -/
inductive Agree (q : Position) : List Datum → List Datum → Prop
  | refl (data : List Datum) : Agree q data data
  | behind {data others : List Datum} (hdata : Behind q data) (hothers : Behind q others) : Agree q data others
  | same {data others : List Datum} (d : Datum) (hspan : d.span.EndsBy q) (hrest : Agree q data others) :
    Agree q (d :: data) (d :: others)
  | around {parts parts' data others : List Datum} {s s' : Span} (hstop : q < s.stop) (hstop' : q < s'.stop)
    (hfirst : ∃ d ∈ parts.head?, d.span.start < q) (hparts : Agree q parts parts') (hdata : Behind q data)
    (hothers : Behind q others) : Agree q (.list parts s :: data) (.list parts' s' :: others)

/-- The data are the same, or lists that go on at the position and agree up to there. -/
inductive Meets (q : Position) : Datum → Datum → Prop
  | refl (d : Datum) : Meets q d d
  | around {parts parts' : List Datum} {s s' : Span} (hstop : q < s.stop)
    (hfirst : ∃ d ∈ parts.head?, d.span.start < q) (hparts : Agree q parts parts') :
    Meets q (.list parts s) (.list parts' s')

theorem Meets.form?_eq {d e : Datum} (h : Meets q d e) : e.form? = d.form? := by
  cases h <;> rfl

theorem Meets.parts {parts parts' : List Datum} {s s' : Span} (h : Meets q (.list parts s) (.list parts' s')) :
    Agree q parts parts' := by
  cases h with
  | refl _ => exact .refl _
  | around _ _ hparts => exact hparts

namespace Agree

variable {data others : List Datum} {d e : Datum} {s : Span}

/-- Where something starts before the position in one of two rows that agree, their first data meet. -/
theorem exists_cons (h : Agree q (d :: data) others) (hs : s ∈ spansOf (d :: data)) (hlt : s.start < q) :
    ∃ e rest, others = e :: rest ∧ Meets q d e ∧ Agree q data rest := by
  cases h with
  | refl _ => exact ⟨d, data, rfl, .refl d, .refl data⟩
  | behind hdata _ => exact absurd hlt (not_lt.mpr (hdata s hs).1)
  | same _ _ hrest => exact ⟨d, _, rfl, .refl d, hrest⟩
  | around hstop _ hfirst hparts hdata hothers =>
    exact ⟨_, _, rfl, .around hstop hfirst hparts, .behind hdata hothers⟩

theorem exists_getElem? (h : Agree q data others) {i : Nat} (hd : data[i]? = some d) (hlt : d.span.start < q) :
    ∃ e, others[i]? = some e ∧ Meets q d e := by
  have hs : d.span ∈ spansOf data := mem_spansOf_iff.mpr ⟨d, List.mem_of_getElem? hd, span_mem_spans d⟩
  induction i generalizing data others with
  | zero =>
    obtain ⟨rest, rfl⟩ := List.head?_eq_some_iff.mp (List.head?_eq_getElem?.trans hd)
    obtain ⟨e, rest', rfl, hmeets, -⟩ := h.exists_cons hs hlt
    exact ⟨e, rfl, hmeets⟩
  | succ i ih =>
    cases data with
    | nil => cases hd
    | cons first data =>
      obtain ⟨e, rest', rfl, -, hrest⟩ := h.exists_cons hs hlt
      exact ih hrest hd (mem_spansOf_iff.mpr ⟨d, List.mem_of_getElem? hd, span_mem_spans d⟩)

theorem meets (h : Agree q data others) (i : Nat) (hd : data[i]? = some d) (he : others[i]? = some e)
    (hlt : d.span.start < q) : Meets q d e := by
  obtain ⟨e', he', hmeets⟩ := h.exists_getElem? hd hlt
  cases he.symm.trans he'
  exact hmeets

/-- One of the rows goes on behind the position, or they are the same. If only the second does, they begin alike. -/
theorem eq_or_last (h : Agree q data others) : data = others ∨ (∃ d ∈ data.getLast?, q < d.span.stop) ∨
    (∃ e ∈ others.getLast?, q < e.span.stop) ∧ ∀ d ∈ data.head?, others.head? = some d ∧ d.span.EndsBy q := by
  have hlast : ∀ {row : List Datum}, Behind q row → ∀ e ∈ row.getLast?, q < e.span.stop :=
    fun hrow e he => (hrow.span (List.mem_of_mem_getLast? he)).lt_stop
  induction h with
  | refl _ => exact .inl rfl
  | @behind data others hdata hothers =>
    cases hd : data.getLast? with
    | some d => exact .inr (.inl ⟨d, rfl, hlast hdata d hd⟩)
    | none =>
      obtain rfl := List.getLast?_eq_none_iff.mp hd
      cases he : others.getLast? with
      | some e => exact .inr (.inr ⟨⟨e, rfl, hlast hothers e he⟩, by simp⟩)
      | none => exact .inl (List.getLast?_eq_none_iff.mp he).symm
  | same d hspan _ ih =>
    rcases ih with rfl | ⟨e, he, hlt⟩ | ⟨⟨e, he, hlt⟩, -⟩
    · exact .inl rfl
    · exact .inr (.inl ⟨e, by rw [List.getLast?_cons, he]; rfl, hlt⟩)
    · refine .inr (.inr ⟨⟨e, by rw [List.getLast?_cons, he]; rfl, hlt⟩, fun d' hd' => ?_⟩)
      cases hd'
      exact ⟨rfl, hspan⟩
  | @around parts parts' data others s s' hstop _ _ _ hdata _ _ =>
    refine .inr (.inl ?_)
    cases hd : data.getLast? with
    | some d => exact ⟨d, by rw [List.getLast?_cons, hd]; rfl, hlast hdata d hd⟩
    | none => exact ⟨.list parts s, by rw [List.getLast?_cons, hd]; rfl, hstop⟩

theorem append {first : List Datum} (h : Agree q data others) (hfirst : ∀ d ∈ first, d.span.EndsBy q) :
    Agree q (first ++ data) (first ++ others) := by
  induction first with
  | nil => exact h
  | cons d first ih =>
    obtain ⟨hspan, hfirst⟩ := List.forall_mem_cons.mp hfirst
    exact .same d hspan (ih hfirst)

end Agree

end Datum

/-! ## Rows of items -/

def Lexeme.endsDatum : Lexeme → Bool
  | closing _ | atom _ | string _ => true
  | opening _ | comment _ => false

namespace Item

variable {q : Position} {items items' : List Item}

theorem data_append (items others : List Item) : data (items ++ others) = data items ++ data others := by
  simp only [data_eq_filterMap, List.filterMap_append]

def Upto (q : Position) (items : List Item) : Prop :=
  ∀ d ∈ data items, d.span.EndsBy q

theorem Upto.cons {item : Item} (h : Upto q items) (hitem : item.span.EndsBy q) :
    Upto q (item :: items) := by
  intro d hd
  cases item with
  | atom text span | string text span | list parts span =>
    rcases List.mem_cons.mp hd with rfl | hd
    · exact hitem
    · exact h d hd
  | comment text span => exact h d hd

theorem Upto.reverse (h : Upto q items) : Upto q items.reverse := by
  intro d hd
  refine h d ?_
  rw [data_eq_filterMap, List.filterMap_reverse, List.mem_reverse] at hd
  rwa [data_eq_filterMap]

/-- What the reader keeps after tokens that end before the position. -/
structure Pending (q : Position) (frames : List Frame) (done : List Item) : Prop where
  room : frames.length ≤ maxNesting
  frames : ∀ frame ∈ frames, frame.span.EndsBy q ∧ Upto q frame.items
  done : Upto q done

theorem Pending.put {frames : List Frame} {done : List Item} (h : Pending q frames done) (item : Item)
    (hitem : item.span.EndsBy q) : Pending q frames (item :: done) :=
  ⟨h.room, h.frames, h.done.cons hitem⟩

theorem Pending.close {frame : Frame} {outer : List Frame} {done : List Item} (h : Pending q (frame :: outer) done)
    {span : Span} (hspan : span.EndsBy q) :
    Pending q outer (.list done.reverse (frame.span.union span) :: frame.items) := by
  obtain ⟨⟨hframe, hitems⟩, houter⟩ := List.forall_mem_cons.mp h.frames
  exact ⟨Nat.le_of_succ_le h.room, houter, hitems.cons (hframe.union hspan)⟩

theorem Pending.exists_readFrom {frames : List Frame} {done : List Item} (h : Pending q frames done)
    {tokens : List Token} (htokens : ∀ token ∈ tokens, token.span.EndsBy q) :
    (∃ frames' done', Pending q frames' done' ∧
      ∀ rest, readFrom frames done (tokens ++ rest) = readFrom frames' done' rest) ∨
    ∃ e, ∀ rest, readFrom frames done (tokens ++ rest) = .error e := by
  induction tokens generalizing frames done with
  | nil => exact .inl ⟨frames, done, h, fun rest => rfl⟩
  | cons token tokens ih =>
    obtain ⟨hspan, hmore⟩ := List.forall_mem_cons.mp htokens
    obtain ⟨lexeme, span⟩ := token
    cases lexeme with
    | opening bracket =>
      by_cases hfull : frames.length = maxNesting
      · exact .inr ⟨_, fun rest => by rw [List.cons_append, readFrom, if_pos hfull]⟩
      · have hopened : Pending q (⟨bracket, span, done⟩ :: frames) [] :=
          ⟨Nat.lt_of_le_of_ne h.room hfull, List.forall_mem_cons.mpr ⟨⟨hspan, h.done⟩, h.frames⟩, by simp [Upto]⟩
        simpa only [List.cons_append, readFrom, if_neg hfull] using ih hopened hmore
    | closing bracket =>
      cases frames with
      | nil => exact .inr ⟨_, fun rest => rfl⟩
      | cons frame outer =>
        by_cases hbracket : frame.bracket = bracket
        · simpa only [List.cons_append, readFrom, if_pos hbracket] using ih (h.close hspan) hmore
        · exact .inr ⟨_, fun rest => by rw [List.cons_append, readFrom, if_neg hbracket]⟩
    | atom text | string text | comment text => exact ih (h.put _ hspan) hmore

theorem Nested.behind {n : Nat} {tokens : List Token} (h : Nested n tokens items)
    (htokens : ∀ token ∈ tokens, token.span.StartsFrom q) : Datum.Behind q (data items) := by
  have hall := h.forall_data (P := fun _ d => ∀ s ∈ d.spans, s.StartsFrom q) (by simp [Datum.spans])
    (by simp [Datum.spans]) (fun hopened hclosed hfound => ?_) htokens
  · intro s hs
    obtain ⟨d, hd, hs⟩ := Datum.mem_spansOf_iff.mp hs
    exact hall d hd s hs
  · refine List.forall_mem_cons.mpr ⟨hopened.union hclosed, fun s hs => ?_⟩
    obtain ⟨d, hd, hs⟩ := Datum.mem_spansOf_iff.mp hs
    exact hfound d hd s hs

theorem data_reverse_cons_list (parts : List Item) (s : Span) (items : List Item) :
    data (.list parts s :: items).reverse = data items.reverse ++ [.list (data parts) s] := by
  rw [List.reverse_cons, data_append]
  rfl

/-- Open lists are closed to data that agree, if what stands in the innermost one does. -/
theorem Closes.agree {frames : List Frame} {done done' : List Item} {tokens tokens' : List Token}
    (hframes : ∀ frame ∈ frames, frame.span.EndsBy q ∧ Upto q frame.items)
    (htokens : ∀ token ∈ tokens, token.span.StartsFrom q) (htokens' : ∀ token ∈ tokens', token.span.StartsFrom q)
    (hdone : ∀ row row', Datum.Behind q row → Datum.Behind q row' →
      Datum.Agree q (data done.reverse ++ row) (data done'.reverse ++ row'))
    (hfirst : ∃ d ∈ (data done.reverse).head?, d.span.start < q)
    (h : Closes frames done tokens items) (h' : Closes frames done' tokens' items') :
    Datum.Agree q (data items) (data items') := by
  induction frames generalizing done done' tokens tokens' with
  | nil =>
    obtain ⟨more, hmore, rfl⟩ := h
    obtain ⟨more', hmore', rfl⟩ := h'
    rw [data_append, data_append]
    exact hdone _ _ (hmore.behind htokens) (hmore'.behind htokens')
  | cons frame outer ih =>
    obtain ⟨inner, closed, rest, parts, rfl, hparts, h⟩ := h
    obtain ⟨inner', closed', rest', parts', rfl, hparts', h'⟩ := h'
    obtain ⟨⟨hframe, hitems⟩, houter⟩ := List.forall_mem_cons.mp hframes
    obtain ⟨hinner, hmore⟩ := List.forall_mem_append.mp htokens
    obtain ⟨hinner', hmore'⟩ := List.forall_mem_append.mp htokens'
    obtain ⟨hclosed, hrest⟩ := List.forall_mem_cons.mp hmore
    obtain ⟨hclosed', hrest'⟩ := List.forall_mem_cons.mp hmore'
    rw [hframe.union_of_startsFrom hclosed] at h
    rw [hframe.union_of_startsFrom hclosed'] at h'
    have hlist := hdone _ _ (hparts.behind hinner) (hparts'.behind hinner')
    rw [← data_append, ← data_append] at hlist
    obtain ⟨d, hd, hlt⟩ := hfirst
    refine ih houter hrest hrest' (fun row row' hrow hrow' => ?_) ?_ h h'
    · rw [data_reverse_cons_list, data_reverse_cons_list, List.append_assoc, List.append_assoc]
      refine .append (.around hclosed.lt_stop hclosed'.lt_stop ⟨d, ?_, hlt⟩ hlist hrow hrow') hitems.reverse
      rw [data_append, List.head?_append, hd]
      rfl
    · rw [data_reverse_cons_list, List.head?_append]
      cases hhead : (data frame.items.reverse).head? with
      | none => exact ⟨_, rfl, hframe.1.trans_le hframe.2⟩
      | some e =>
        have hspan := hitems.reverse e (List.mem_of_mem_head? hhead)
        exact ⟨e, rfl, hspan.1.trans_le hspan.2⟩

theorem Pending.agree {frames : List Frame} {done : List Item} {behind behind' : List Token}
    (hpending : Pending q frames done) (hne : data done ≠ []) (hbehind : ∀ token ∈ behind, token.span.StartsFrom q)
    (hbehind' : ∀ token ∈ behind', token.span.StartsFrom q) (h : readFrom frames done behind = .ok items)
    (h' : readFrom frames done behind' = .ok items') : Datum.Agree q (data items) (data items') := by
  have hdone := hpending.done.reverse
  refine Closes.agree hpending.frames hbehind hbehind' (fun row row' hrow hrow' => ?_) ?_
    (closes_of_readFrom h hpending.room) (closes_of_readFrom h' hpending.room)
  · exact .append (.behind hrow hrow') hdone
  · obtain ⟨d, hd⟩ := List.exists_mem_of_ne_nil _ hne
    have hmem : d ∈ data done.reverse := by
      rw [data_eq_filterMap] at hd ⊢
      rwa [List.filterMap_reverse, List.mem_reverse]
    obtain ⟨first, rest, hcons⟩ := List.exists_cons_of_ne_nil (List.ne_nil_of_mem hmem)
    have hspan := hdone first (hcons ▸ List.mem_cons_self)
    exact ⟨first, by rw [hcons]; rfl, hspan.1.trans_le hspan.2⟩

theorem agree_of_read {before behind behind' : List Token} {last : Token} (hends : last.lexeme.endsDatum = true)
    (hbefore : ∀ token ∈ before, token.span.EndsBy q) (hlast : last.span.EndsBy q)
    (hbehind : ∀ token ∈ behind, token.span.StartsFrom q) (hbehind' : ∀ token ∈ behind', token.span.StartsFrom q)
    (h : read (before ++ last :: behind) = .ok items) (h' : read (before ++ last :: behind') = .ok items') :
    Datum.Agree q (data items) (data items') := by
  have hstart : Pending q [] [] := ⟨Nat.zero_le _, by simp, by simp [Upto]⟩
  obtain ⟨frames, done, hpending, hread⟩ | ⟨e, herror⟩ := hstart.exists_readFrom hbefore
  · rw [read, hread] at h h'
    obtain ⟨lexeme, span⟩ := last
    cases lexeme with
    | opening bracket | comment text => cases hends
    | atom text => exact (hpending.put (.atom text span) hlast).agree (by simp) hbehind hbehind' h h'
    | string text => exact (hpending.put (.string text span) hlast).agree (by simp) hbehind hbehind' h h'
    | closing bracket =>
      cases frames with
      | nil => cases h
      | cons frame outer =>
        rw [readFrom] at h h'
        split at h
        · next hbracket =>
          rw [if_pos hbracket] at h'
          exact (hpending.close hlast).agree (by simp) hbehind hbehind' h h'
        · cases h
  · rw [read, herror] at h
    cases h

theorem Nested.exists_last {n : Nat} {tokens : List Token} (h : Nested n tokens items)
    (hproper : ∀ token ∈ tokens, token.span.start < token.span.stop)
    (hapart : tokens.Pairwise fun a b => a.span.stop ≤ b.span.start) :
    ∀ s ∈ spans items, ∃ token ∈ tokens, token.lexeme.endsDatum = true ∧ token.span.stop = s.stop := by
  induction h with
  | nil => simp
  | atom text span _ ih | string text span _ ih =>
    refine List.forall_mem_cons.mpr ⟨⟨_, List.mem_cons_self, rfl, rfl⟩, fun s hs => ?_⟩
    obtain ⟨token, hmem, htoken⟩ := ih (List.forall_mem_cons.mp hproper).2 hapart.of_cons s hs
    exact ⟨token, List.mem_cons_of_mem _ hmem, htoken⟩
  | comment text span _ ih =>
    intro s hs
    obtain ⟨token, hmem, htoken⟩ := ih (List.forall_mem_cons.mp hproper).2 hapart.of_cons s hs
    exact ⟨token, List.mem_cons_of_mem _ hmem, htoken⟩
  | @list n inner tokens parts items bracket opened closed _ _ ihparts ihrest =>
    obtain ⟨hopened, hmore⟩ := List.forall_mem_cons.mp hproper
    obtain ⟨hinner, hmore⟩ := List.forall_mem_append.mp hmore
    obtain ⟨hclosed, hrest⟩ := List.forall_mem_cons.mp hmore
    obtain ⟨hbehind, hapart⟩ := List.pairwise_cons.mp hapart
    obtain ⟨hapartInner, hapartMore, -⟩ := List.pairwise_append.mp hapart
    have hle : opened.stop ≤ closed.start := hbehind ⟨.closing bracket, closed⟩ (by simp)
    refine List.forall_mem_cons.mpr ⟨⟨⟨.closing bracket, closed⟩, by simp, rfl, ?_⟩,
      List.forall_mem_append.mpr ⟨fun s hs => ?_, fun s hs => ?_⟩⟩
    · exact (max_eq_right (hle.trans hclosed.le)).symm
    · obtain ⟨token, hmem, htoken⟩ := ihparts hinner hapartInner s hs
      exact ⟨token, by simp [hmem], htoken⟩
    · obtain ⟨token, hmem, htoken⟩ := ihrest hrest hapartMore.of_cons s hs
      exact ⟨token, by simp [hmem], htoken⟩

end Item

/-! ## Texts -/

/-- Texts that have in common what is up to the end of a datum, and the next character, are read as data that agree up
to there. -/
theorem exists_agreement {source : String} {tokens : List Token} {items : List Item}
    (htokens : Token.tokenize source = .ok tokens) (hitems : Item.read tokens = .ok items) {s : Span}
    (hs : s ∈ Item.spans items) : ∃ first rest, source.toList = first ++ rest ∧ s.stop = Position.zero.after first ∧
      ∀ {source' : String} {rest' : List Char} {tokens' : List Token} {items' : List Item},
        source'.toList = first ++ rest' → (∀ c ∈ rest'.head?, c ∈ rest.head?) → Token.tokenize source' = .ok tokens' →
        Item.read tokens' = .ok items' → Datum.Agree s.stop (Item.data items) (Item.data items') := by
  have htiled := Token.tiled_of_scans (Token.scan_eq_ok_iff.mp htokens)
  obtain ⟨last, hlast, hends, hstop⟩ := (Item.read_eq_ok_iff.mp hitems).exists_last
    (fun token hmem => (htiled.positions token hmem).2.2) htiled.apart s hs
  obtain ⟨before, behind, rfl⟩ := List.append_of_mem hlast
  obtain ⟨first, rest, hsource, hfirst, hsame⟩ := Token.exists_beginning htokens
  refine ⟨first, rest, hsource, hstop ▸ hfirst, fun hsource' hhead htokens' hitems' => ?_⟩
  obtain ⟨more, rfl⟩ := hsame hsource' hhead htokens'
  have htiled' := Token.tiled_of_scans (Token.scan_eq_ok_iff.mp htokens')
  have hfrom : ∀ {source : String} {behind : List Token}, Tiled source (before ++ last :: behind) →
      ∀ token ∈ behind, token.span.StartsFrom s.stop := by
    intro source behind h token hmem
    have hrow := (List.pairwise_append.mp h.apart).2.1
    refine ⟨hstop ▸ (List.pairwise_cons.mp hrow).1 token hmem, (h.positions token ?_).2.2⟩
    exact List.mem_append_right _ (List.mem_cons_of_mem _ hmem)
  have hproper : ∀ token ∈ before ++ last :: behind, token.span.start < token.span.stop :=
    fun token hmem => (htiled.positions token hmem).2.2
  refine Item.agree_of_read hends (fun token hmem => ⟨hproper token (by simp [hmem]), ?_⟩)
    ⟨hproper last (by simp), hstop.le⟩ (hfrom htiled) (hfrom htiled') hitems hitems'
  have hle := (List.pairwise_append.mp htiled.apart).2.2 token hmem last List.mem_cons_self
  exact hle.trans ((hproper last (by simp)).le.trans hstop.le)

end Scheme

end StructuralEditor
