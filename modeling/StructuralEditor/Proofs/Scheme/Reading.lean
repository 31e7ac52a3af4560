import StructuralEditor.Proofs.Outcome
import StructuralEditor.Scheme.Datum

/-!
# Matching brackets

* `ParseError.At` : where an error was found;
* `Item.Nested` : tokens with matching brackets, nested no deeper than a bound, and the items that they spell;
* `Item.read_eq_ok_iff` : reading accepts just these, and gives these items;
* `Item.failsWith_read` : what reading refuses, it refuses at the start of a token.
-/

namespace StructuralEditor

def ParseError.At (P : Position → Prop) (e : ParseError) : Prop := ∃ p, e.position = some p ∧ P p

theorem ParseError.at_foundAt {P : Position → Prop} {p : Position} (h : P p) (fault : ParseFault) :
    (foundAt p fault).At P := ⟨p, rfl, h⟩

namespace Scheme.Item

/-- The tokens spell the items, with matching brackets nested at most `n` deep. -/
inductive Nested : Nat → List Token → List Item → Prop
  | nil {n : Nat} : Nested n [] []
  | atom {n : Nat} {tokens : List Token} {items : List Item} (text : String) (span : Span)
    (hrest : Nested n tokens items) : Nested n (⟨.atom text, span⟩ :: tokens) (.atom text span :: items)
  | string {n : Nat} {tokens : List Token} {items : List Item} (text : String) (span : Span)
    (hrest : Nested n tokens items) : Nested n (⟨.string text, span⟩ :: tokens) (.string text span :: items)
  | comment {n : Nat} {tokens : List Token} {items : List Item} (text : String) (span : Span)
    (hrest : Nested n tokens items) : Nested n (⟨.comment text, span⟩ :: tokens) (.comment text span :: items)
  | list {n : Nat} {inner tokens : List Token} {parts items : List Item} (bracket : Bracket) (opened closed : Span)
    (hinner : Nested n inner parts) (hrest : Nested (n + 1) tokens items) :
    Nested (n + 1) (⟨.opening bracket, opened⟩ :: (inner ++ ⟨.closing bracket, closed⟩ :: tokens))
      (.list parts (opened.union closed) :: items)

/-- What follows for a datum from a property of its tokens, follows for all data among the items. -/
theorem Nested.forall_data {T : Token → Prop} {P : Nat → Datum → Prop}
    (hatom : ∀ {n text span}, T ⟨.atom text, span⟩ → P n (.atom text span))
    (hstring : ∀ {n text span}, T ⟨.string text, span⟩ → P n (.string text span))
    (hlist : ∀ {n bracket opened closed found}, T ⟨.opening bracket, opened⟩ → T ⟨.closing bracket, closed⟩ →
      (∀ datum ∈ found, P n datum) → P (n + 1) (.list found (opened.union closed)))
    {n : Nat} {tokens : List Token} {items : List Item} (h : Nested n tokens items)
    (htokens : ∀ token ∈ tokens, T token) : ∀ datum ∈ data items, P n datum := by
  induction h with
  | nil => simp [data]
  | atom text span _ ih =>
    obtain ⟨hhere, hrest⟩ := List.forall_mem_cons.mp htokens
    exact List.forall_mem_cons.mpr ⟨hatom hhere, ih hrest⟩
  | string text span _ ih =>
    obtain ⟨hhere, hrest⟩ := List.forall_mem_cons.mp htokens
    exact List.forall_mem_cons.mpr ⟨hstring hhere, ih hrest⟩
  | comment text span _ ih => exact ih (List.forall_mem_cons.mp htokens).2
  | list bracket opened closed _ _ ihinner ihrest =>
    obtain ⟨hopened, hmore⟩ := List.forall_mem_cons.mp htokens
    obtain ⟨hinner, hmore⟩ := List.forall_mem_append.mp hmore
    obtain ⟨hclosed, hrest⟩ := List.forall_mem_cons.mp hmore
    exact List.forall_mem_cons.mpr ⟨hlist hopened hclosed (ihinner hinner), ihrest hrest⟩

/-! ## What is nested is read -/

/-- Nested tokens are read on from any point where there is room for their brackets. -/
theorem Nested.readFrom_append {n : Nat} {tokens : List Token} {items : List Item} (h : Nested n tokens items)
    {frames : List Frame} (hroom : frames.length + n ≤ maxNesting) (done : List Item) (rest : List Token) :
    readFrom frames done (tokens ++ rest) = readFrom frames (items.reverse ++ done) rest := by
  induction h generalizing frames done rest with
  | nil => rfl
  | atom text span _ ih | string text span _ ih | comment text span _ ih =>
    rw [List.cons_append, readFrom, ih hroom]
    simp
  | @list n inner tokens parts items bracket opened closed _ _ ihinner ihrest =>
    have hlt : frames.length ≠ maxNesting := by omega
    have hroom' : (⟨bracket, opened, done⟩ :: frames : List Frame).length + n ≤ maxNesting := by
      rw [List.length_cons]
      omega
    rw [List.cons_append, readFrom, if_neg hlt, List.append_assoc, ihinner hroom', List.append_nil,
      List.cons_append, readFrom, if_pos rfl, List.reverse_reverse, ihrest hroom]
    simp

/-! ## What is read is nested -/

/-- What is read on from open lists: each of them is closed by its bracket after what is still missing in it, and
goes into the one around it. -/
def Closes : List Frame → List Item → List Token → List Item → Prop
  | [], done, tokens, items => ∃ more, Nested maxNesting tokens more ∧ items = done.reverse ++ more
  | frame :: outer, done, tokens, items =>
    ∃ inner closed rest parts, tokens = inner ++ ⟨.closing frame.bracket, closed⟩ :: rest ∧
      Nested (maxNesting - (outer.length + 1)) inner parts ∧
      Closes outer (.list (done.reverse ++ parts) (frame.span.union closed) :: frame.items) rest items

/-- Tokens that spell one item can be put before what is read on after it. -/
theorem Closes.prepend {frames : List Frame} {done : List Item} {item : Item} {rest : List Token}
    {items : List Item} (h : Closes frames (item :: done) rest items) (first : List Token)
    (hfirst : ∀ {tokens more}, Nested (maxNesting - frames.length) tokens more →
      Nested (maxNesting - frames.length) (first ++ tokens) (item :: more)) :
    Closes frames done (first ++ rest) items := by
  cases frames with
  | nil =>
    obtain ⟨more, hmore, rfl⟩ := h
    exact ⟨item :: more, hfirst hmore, by simp⟩
  | cons frame outer =>
    obtain ⟨inner, closed, rest', parts, rfl, hparts, h⟩ := h
    refine ⟨first ++ inner, closed, rest', item :: parts, by simp, hfirst hparts, ?_⟩
    rwa [List.reverse_cons, List.append_assoc] at h

theorem closes_of_readFrom {frames : List Frame} {done items : List Item} {tokens : List Token}
    (h : readFrom frames done tokens = .ok items) (hroom : frames.length ≤ maxNesting) :
    Closes frames done tokens items := by
  induction tokens generalizing frames done with
  | nil =>
    cases frames with
    | nil =>
      cases h
      exact ⟨[], .nil, by simp⟩
    | cons frame outer => cases h
  | cons token rest ih =>
    obtain ⟨lexeme, span⟩ := token
    cases lexeme with
    | opening bracket =>
      rw [readFrom] at h
      split at h
      · cases h
      · next hlt =>
        have hroom' : frames.length + 1 ≤ maxNesting := by omega
        obtain ⟨inner, closed, rest', parts, rfl, hparts, hclose⟩ := ih h hroom'
        have hdepth : maxNesting - frames.length = maxNesting - (frames.length + 1) + 1 := by omega
        have hlist := hclose.prepend (⟨.opening bracket, span⟩ :: (inner ++ [⟨.closing bracket, closed⟩]))
          fun {tokens more} hmore => by
            rw [hdepth] at hmore ⊢
            have := Nested.list bracket span closed hparts hmore
            simpa using this
        simpa using hlist
    | closing bracket =>
      cases frames with
      | nil => cases h
      | cons frame outer =>
        rw [readFrom] at h
        split at h
        · next hbracket =>
          subst hbracket
          rw [List.length_cons] at hroom
          exact ⟨[], span, rest, [], rfl, .nil, by simpa using ih h (by omega)⟩
        · cases h
    | atom text => exact (ih h hroom).prepend [_] fun hmore => .atom text span hmore
    | string text => exact (ih h hroom).prepend [_] fun hmore => .string text span hmore
    | comment text => exact (ih h hroom).prepend [_] fun hmore => .comment text span hmore

/-- Reading accepts just the tokens with matching brackets that are not nested too deep. -/
theorem read_eq_ok_iff {tokens : List Token} {items : List Item} :
    read tokens = .ok items ↔ Nested maxNesting tokens items := by
  constructor
  · intro h
    obtain ⟨more, hmore, rfl⟩ := closes_of_readFrom h (Nat.zero_le _)
    exact hmore
  · intro h
    have hread : readFrom [] [] (tokens ++ []) = readFrom [] (items.reverse ++ []) [] :=
      h.readFrom_append (by simp) [] []
    rw [List.append_nil, List.append_nil] at hread
    rw [read, hread, readFrom, List.reverse_reverse]

/-! ## What is refused -/

theorem failsWith_readFrom {P : Position → Prop} {frames : List Frame} {tokens : List Token}
    (hframes : ∀ frame ∈ frames, P frame.span.start) (htokens : ∀ token ∈ tokens, P token.span.start)
    (done : List Item) : FailsWith (ParseError.At P) (readFrom frames done tokens) := by
  induction tokens generalizing frames done with
  | nil =>
    cases frames with
    | nil => exact .ok _
    | cons frame outer => exact .error (ParseError.at_foundAt (hframes frame List.mem_cons_self) _)
  | cons token rest ih =>
    obtain ⟨hhere, hrest⟩ := List.forall_mem_cons.mp htokens
    obtain ⟨lexeme, span⟩ := token
    cases lexeme with
    | opening bracket =>
      rw [readFrom]
      split
      · exact .error (ParseError.at_foundAt hhere _)
      · exact ih (List.forall_mem_cons.mpr ⟨hhere, hframes⟩) hrest _
    | closing bracket =>
      cases frames with
      | nil => exact .error (ParseError.at_foundAt hhere _)
      | cons frame outer =>
        rw [readFrom]
        split
        · exact ih (List.forall_mem_cons.mp hframes).2 hrest _
        · exact .error (ParseError.at_foundAt hhere _)
    | atom text | string text | comment text => exact ih hframes hrest _

theorem failsWith_read {P : Position → Prop} {tokens : List Token} (h : ∀ token ∈ tokens, P token.span.start) :
    FailsWith (ParseError.At P) (read tokens) :=
  failsWith_readFrom (by simp) h []

end Scheme.Item

end StructuralEditor
