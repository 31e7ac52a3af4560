import Mathlib.Data.List.Induction
import StructuralEditor.Proofs.Scheme.Reading

/-!
# What the reader makes of brackets

The reader keeps a stack of open lists, while the brackets of a text are a matter of its grammar. Here the two meet.

* `Balanced` : tokens with matching brackets, nested no deeper than a bound, whatever they spell;
* `Flattens` : items written out, each list between two brackets that its span joins;
* `Viable` : tokens that can go on so that they are balanced in the end;
* `Leaves`, `Offends` : the brackets that tokens leave open, and the tokens that cannot stand after them;
* `exists_leaves_or_offends` : tokens leave some brackets open, or have a first token that cannot stand where it does;
* `read_accepts_balanced` : the reader accepts the balanced tokens and flattens back to them, and refuses all others at
  the first token without hope, or at the innermost bracket that is left open.
-/

namespace StructuralEditor.Scheme

def Lexeme.isBracket : Lexeme → Bool
  | opening _ | closing _ => true
  | string _ | atom _ | comment _ => false

namespace Item

/-! ## The grammar of brackets -/

/-- The brackets of the tokens match pairwise in their shapes, and are nested at most `n` deep. -/
inductive Balanced : Nat → List Token → Prop
  | nil {n : Nat} : Balanced n []
  | plain {n : Nat} {tokens : List Token} (token : Token) (h : token.lexeme.isBracket = false)
    (hrest : Balanced n tokens) : Balanced n (token :: tokens)
  | list {n : Nat} {inner tokens : List Token} (bracket : Bracket) (opened closed : Span) (hinner : Balanced n inner)
    (hrest : Balanced (n + 1) tokens) :
    Balanced (n + 1) (⟨.opening bracket, opened⟩ :: (inner ++ ⟨.closing bracket, closed⟩ :: tokens))

/-- The items, written out in document order, are the tokens. A list stands between two brackets of one shape, and its
span is the least over both; the shape and the ends of the brackets are not noted in the items. -/
inductive Flattens : List Item → List Token → Prop
  | nil : Flattens [] []
  | atom {items : List Item} {tokens : List Token} (text : String) (span : Span) (hrest : Flattens items tokens) :
    Flattens (.atom text span :: items) (⟨.atom text, span⟩ :: tokens)
  | string {items : List Item} {tokens : List Token} (text : String) (span : Span) (hrest : Flattens items tokens) :
    Flattens (.string text span :: items) (⟨.string text, span⟩ :: tokens)
  | comment {items : List Item} {tokens : List Token} (text : String) (span : Span) (hrest : Flattens items tokens) :
    Flattens (.comment text span :: items) (⟨.comment text, span⟩ :: tokens)
  | list {parts items : List Item} {inner tokens : List Token} (bracket : Bracket) (opened closed : Span)
    (hinner : Flattens parts inner) (hrest : Flattens items tokens) :
    Flattens (.list parts (opened.union closed) :: items)
      (⟨.opening bracket, opened⟩ :: (inner ++ ⟨.closing bracket, closed⟩ :: tokens))

theorem Nested.balanced {n : Nat} {tokens : List Token} {items : List Item} (h : Nested n tokens items) :
    Balanced n tokens := by
  induction h with
  | nil => exact .nil
  | atom text span _ ih | string text span _ ih | comment text span _ ih => exact .plain _ rfl ih
  | list bracket opened closed _ _ ihinner ihrest => exact .list bracket opened closed ihinner ihrest

theorem Nested.flattens {n : Nat} {tokens : List Token} {items : List Item} (h : Nested n tokens items) :
    Flattens items tokens := by
  induction h with
  | nil => exact .nil
  | atom text span _ ih => exact .atom text span ih
  | string text span _ ih => exact .string text span ih
  | comment text span _ ih => exact .comment text span ih
  | list bracket opened closed _ _ ihinner ihrest => exact .list bracket opened closed ihinner ihrest

theorem Balanced.exists_nested {n : Nat} {tokens : List Token} (h : Balanced n tokens) :
    ∃ items, Nested n tokens items := by
  induction h with
  | nil => exact ⟨[], .nil⟩
  | plain token hplain _ ih =>
    obtain ⟨items, hitems⟩ := ih
    obtain ⟨lexeme, span⟩ := token
    cases lexeme with
    | opening bracket | closing bracket => cases hplain
    | string text => exact ⟨_, .string text span hitems⟩
    | atom text => exact ⟨_, .atom text span hitems⟩
    | comment text => exact ⟨_, .comment text span hitems⟩
  | list bracket opened closed _ _ ihinner ihrest =>
    obtain ⟨parts, hparts⟩ := ihinner
    obtain ⟨items, hitems⟩ := ihrest
    exact ⟨_, .list bracket opened closed hparts hitems⟩

theorem exists_read_iff {tokens : List Token} : (∃ items, read tokens = .ok items) ↔ Balanced maxNesting tokens := by
  constructor
  · rintro ⟨items, h⟩
    exact (read_eq_ok_iff.mp h).balanced
  · intro h
    obtain ⟨items, hitems⟩ := h.exists_nested
    exact ⟨items, read_eq_ok_iff.mpr hitems⟩

theorem Balanced.append {n : Nat} {tokens more : List Token} (h : Balanced n tokens) (hmore : Balanced n more) :
    Balanced n (tokens ++ more) := by
  induction h with
  | nil => exact hmore
  | plain token hplain _ ih => exact .plain token hplain (ih hmore)
  | list bracket opened closed hinner _ _ ih =>
    rw [List.cons_append, List.append_assoc, List.cons_append]
    exact .list bracket opened closed hinner (ih hmore)

/-! ## Brackets that are left open -/

/-- The tokens leave these brackets open, innermost first. What stands before, between and behind them is balanced, with
as much room for brackets as there is. -/
inductive Leaves : List (Bracket × Span) → List Token → Prop
  | none {tokens : List Token} (h : Balanced maxNesting tokens) : Leaves [] tokens
  | opened {outer : List (Bracket × Span)} {before inner : List Token} (bracket : Bracket) (span : Span)
    (hbefore : Leaves outer before) (hroom : outer.length < maxNesting)
    (hinner : Balanced (maxNesting - (outer.length + 1)) inner) :
    Leaves ((bracket, span) :: outer) (before ++ ⟨.opening bracket, span⟩ :: inner)

/-- After tokens that leave `stack` open the token cannot stand, for the given fault: it closes nothing, or a bracket of
another shape, or it opens one bracket too many. -/
inductive Offends : List (Bracket × Span) → Token → ParseFault → Prop
  | stray (bracket : Bracket) (span : Span) : Offends [] ⟨.closing bracket, span⟩ (.unexpectedClosing bracket)
  | mismatched {outer : List (Bracket × Span)} {opened bracket : Bracket} (openedSpan span : Span)
    (h : opened ≠ bracket) :
    Offends ((opened, openedSpan) :: outer) ⟨.closing bracket, span⟩ (.mismatchedClosing opened openedSpan.start)
  | tooDeep {stack : List (Bracket × Span)} (bracket : Bracket) (span : Span) (h : stack.length = maxNesting) :
    Offends stack ⟨.opening bracket, span⟩ .nestingTooDeep

theorem Leaves.length_le {stack : List (Bracket × Span)} {tokens : List Token} (h : Leaves stack tokens) :
    stack.length ≤ maxNesting := by
  cases h with
  | none _ => exact Nat.zero_le _
  | opened _ _ _ hroom _ => exact hroom

theorem Leaves.append {stack : List (Bracket × Span)} {tokens more : List Token} (h : Leaves stack tokens)
    (hmore : Balanced (maxNesting - stack.length) more) : Leaves stack (tokens ++ more) := by
  cases h with
  | none h => exact .none (h.append hmore)
  | opened bracket span hbefore hroom hinner =>
    rw [List.append_assoc, List.cons_append]
    exact .opened bracket span hbefore hroom (hinner.append hmore)

/-- Tokens leave some brackets open, or a first one of them cannot stand where it does. -/
theorem exists_leaves_or_offends (tokens : List Token) :
    (∃ stack, Leaves stack tokens) ∨
      ∃ before token behind stack fault, tokens = before ++ token :: behind ∧ Leaves stack before ∧
        Offends stack token fault := by
  -- The induction adds a token at the end: only the innermost open bracket matters for it.
  induction tokens using List.reverseRecOn with
  | nil => exact .inl ⟨[], .none .nil⟩
  | append_singleton tokens token ih =>
    rcases ih with ⟨stack, hleaves⟩ | ⟨before, first, behind, stack, fault, rfl, hbefore, hoffends⟩
    · obtain ⟨lexeme, span⟩ := token
      cases lexeme with
      | string text | atom text | comment text => exact .inl ⟨stack, hleaves.append (.plain _ rfl .nil)⟩
      | opening bracket =>
        by_cases hroom : stack.length = maxNesting
        · exact .inr ⟨tokens, _, [], stack, _, rfl, hleaves, .tooDeep bracket span hroom⟩
        · have hlt : stack.length < maxNesting := Nat.lt_of_le_of_ne hleaves.length_le hroom
          exact .inl ⟨_, .opened bracket span hleaves hlt .nil⟩
      | closing bracket =>
        cases hleaves with
        | none h => exact .inr ⟨tokens, _, [], [], _, rfl, .none h, .stray bracket span⟩
        | @opened outer before inner opened openedSpan hbefore hroom hinner =>
          by_cases hshape : opened = bracket
          · -- The bracket and what is in it are balanced behind the brackets around it.
            subst hshape
            have hdepth : maxNesting - outer.length = maxNesting - (outer.length + 1) + 1 := by omega
            have hlist : Balanced (maxNesting - outer.length)
                (⟨.opening opened, openedSpan⟩ :: (inner ++ [⟨.closing opened, span⟩])) := by
              rw [hdepth]
              exact .list opened openedSpan span hinner .nil
            refine .inl ⟨outer, ?_⟩
            rw [List.append_assoc, List.cons_append]
            exact hbefore.append hlist
          · exact .inr ⟨_, _, [], _, _, rfl, .opened opened openedSpan hbefore hroom hinner,
              .mismatched openedSpan span hshape⟩
    · refine .inr ⟨before, first, behind ++ [token], stack, fault, ?_, hbefore, hoffends⟩
      rw [List.append_assoc, List.cons_append]

/-! ## The reader on such tokens -/

theorem Leaves.exists_readFrom {stack : List (Bracket × Span)} {tokens : List Token} (h : Leaves stack tokens) :
    ∃ frames done, frames.map (fun frame => (frame.bracket, frame.span)) = stack ∧
      ∀ rest, read (tokens ++ rest) = readFrom frames done rest := by
  induction h with
  | none h =>
    obtain ⟨items, hitems⟩ := h.exists_nested
    exact ⟨[], items.reverse ++ [], rfl, fun rest => hitems.readFrom_append (Nat.le_of_eq (Nat.zero_add _)) [] rest⟩
  | @opened outer before inner bracket span _ hroom hinner ih =>
    obtain ⟨frames, done, hframes, hread⟩ := ih
    obtain ⟨parts, hparts⟩ := hinner.exists_nested
    have hlength : frames.length = outer.length := by rw [← hframes, List.length_map]
    have hne : frames.length ≠ maxNesting := by omega
    have hroom' : (⟨bracket, span, done⟩ :: frames : List Frame).length +
        (maxNesting - (outer.length + 1)) ≤ maxNesting := by
      rw [List.length_cons, hlength]
      omega
    refine ⟨⟨bracket, span, done⟩ :: frames, parts.reverse ++ [], by rw [List.map_cons, hframes], fun rest => ?_⟩
    rw [List.append_assoc, hread, List.cons_append, readFrom, if_neg hne, hparts.readFrom_append hroom']

theorem exists_readFrom_eq_ok (frames : List Frame) (done : List Item) :
    ∃ more items, readFrom frames done more = .ok items := by
  induction frames generalizing done with
  | nil => exact ⟨[], done.reverse, rfl⟩
  | cons frame outer ih =>
    obtain ⟨more, items, h⟩ := ih (.list done.reverse (frame.span.union frame.span) :: frame.items)
    exact ⟨⟨.closing frame.bracket, frame.span⟩ :: more, items, by rw [readFrom, if_pos rfl, h]⟩

/-- At a token that cannot stand the reader stops, whatever comes behind it. -/
theorem read_of_offends {stack : List (Bracket × Span)} {before : List Token} {token : Token} {fault : ParseFault}
    (hbefore : Leaves stack before) (h : Offends stack token fault) (behind : List Token) :
    read (before ++ token :: behind) = .error (ParseError.foundAt token.span.start fault) := by
  obtain ⟨frames, done, hframes, hread⟩ := hbefore.exists_readFrom
  rw [hread]
  cases h with
  | stray bracket span =>
    obtain rfl := List.map_eq_nil_iff.mp hframes
    rw [readFrom]
  | mismatched openedSpan span hne =>
    obtain ⟨frame, outer, rfl, hframe, -⟩ := List.map_eq_cons_iff.mp hframes
    obtain ⟨rfl, rfl⟩ := Prod.mk.inj hframe
    rw [readFrom, if_neg hne]
  | tooDeep bracket span hlength =>
    have hfull : frames.length = maxNesting := by rw [← hlength, ← hframes, List.length_map]
    rw [readFrom, if_pos hfull]

/-- At the end of the tokens the reader misses the bracket that closes the innermost open one. -/
theorem read_of_leaves {bracket : Bracket} {span : Span} {outer : List (Bracket × Span)} {tokens : List Token}
    (h : Leaves ((bracket, span) :: outer) tokens) :
    read tokens = .error (ParseError.foundAt span.start (.missingClosing bracket)) := by
  obtain ⟨frames, done, hframes, hread⟩ := h.exists_readFrom
  obtain ⟨frame, outer, rfl, hframe, -⟩ := List.map_eq_cons_iff.mp hframes
  obtain ⟨rfl, rfl⟩ := Prod.mk.inj hframe
  rw [← List.append_nil tokens, hread, readFrom]

/-! ## Hope -/

/-- The tokens can go on so that they are balanced in the end. -/
def Viable (tokens : List Token) : Prop := ∃ more, Balanced maxNesting (tokens ++ more)

theorem Leaves.viable {stack : List (Bracket × Span)} {tokens : List Token} (h : Leaves stack tokens) :
    Viable tokens := by
  obtain ⟨frames, done, -, hread⟩ := h.exists_readFrom
  obtain ⟨more, items, hmore⟩ := exists_readFrom_eq_ok frames done
  exact ⟨more, exists_read_iff.mp ⟨items, (hread more).trans hmore⟩⟩

theorem not_viable_of_offends {stack : List (Bracket × Span)} {before : List Token} {token : Token}
    {fault : ParseFault} (hbefore : Leaves stack before) (h : Offends stack token fault) :
    ¬ Viable (before ++ [token]) := by
  rintro ⟨more, hmore⟩
  rw [List.append_assoc, List.singleton_append] at hmore
  obtain ⟨items, hitems⟩ := exists_read_iff.mpr hmore
  rw [read_of_offends hbefore h] at hitems
  cases hitems

/-- The error is found at the first token after which there is no hope: what stands before it could have gone on, and
leaves brackets open after which the token cannot stand. -/
def FailsAtFirst (tokens : List Token) (e : ParseError) : Prop :=
  ∃ before token behind stack fault, tokens = before ++ token :: behind ∧ Viable before ∧ ¬ Viable (before ++ [token]) ∧
    Leaves stack before ∧ Offends stack token fault ∧ e = ParseError.foundAt token.span.start fault

/-- The tokens could have gone on, and the error is found at the innermost bracket that they leave open. -/
def FailsAtEnd (tokens : List Token) (e : ParseError) : Prop :=
  ∃ bracket span outer, Viable tokens ∧ Leaves ((bracket, span) :: outer) tokens ∧
    e = ParseError.foundAt span.start (.missingClosing bracket)

/-- Reading accepts just the tokens with matching brackets that are nested no deeper than allowed, and gives items that
flatten back to them. Other tokens are refused at the first of them after which there is no hope, or, if they only end
too early, at the innermost bracket that they leave open. -/
theorem read_accepts_balanced (tokens : List Token) :
    ((∃ items, read tokens = .ok items) ↔ Balanced maxNesting tokens) ∧
    (∀ items, read tokens = .ok items → Flattens items tokens) ∧
    ∀ e, read tokens = .error e → FailsAtFirst tokens e ∨ FailsAtEnd tokens e := by
  refine ⟨exists_read_iff, fun items h => (read_eq_ok_iff.mp h).flattens, fun e he => ?_⟩
  rcases exists_leaves_or_offends tokens with ⟨stack, hleaves⟩ | ⟨before, token, behind, stack, fault, rfl, hbefore, h⟩
  · cases stack with
    | nil =>
      cases hleaves with
      | none hbalanced =>
        obtain ⟨items, hitems⟩ := exists_read_iff.mpr hbalanced
        cases hitems.symm.trans he
    | cons innermost outer =>
      refine .inr ⟨innermost.1, innermost.2, outer, hleaves.viable, hleaves, ?_⟩
      exact Except.error.inj (he.symm.trans (read_of_leaves hleaves))
  · have hhopeless := not_viable_of_offends hbefore h
    refine .inl ⟨before, token, behind, stack, fault, rfl, hbefore.viable, hhopeless, hbefore, h, ?_⟩
    exact Except.error.inj (he.symm.trans (read_of_offends hbefore h behind))

/-- A list with a comment in it is read. A bracket of another shape is refused where it stands, and tokens that only end
too early are refused at the first of two brackets, as the second is closed. -/
theorem read_accepts_balanced_lists :
    (∃ tokens items, tokens = [⟨.opening .square, ⟨⟨0, 0⟩, ⟨0, 1⟩⟩⟩, ⟨.comment ";c", ⟨⟨0, 1⟩, ⟨0, 3⟩⟩⟩,
        ⟨.closing .square, ⟨⟨1, 0⟩, ⟨1, 1⟩⟩⟩] ∧
      read tokens = .ok items ∧ Balanced maxNesting tokens ∧ Flattens items tokens) ∧
    (∃ tokens e, tokens = [⟨.opening .round, ⟨⟨0, 0⟩, ⟨0, 1⟩⟩⟩, ⟨.closing .square, ⟨⟨0, 1⟩, ⟨0, 2⟩⟩⟩] ∧
      read tokens = .error e ∧ e.position = some ⟨0, 1⟩ ∧ (FailsAtFirst tokens e ∨ FailsAtEnd tokens e)) ∧
    ∃ tokens e, tokens = [⟨.opening .round, ⟨⟨0, 0⟩, ⟨0, 1⟩⟩⟩, ⟨.opening .square, ⟨⟨0, 1⟩, ⟨0, 2⟩⟩⟩,
        ⟨.closing .square, ⟨⟨0, 2⟩, ⟨0, 3⟩⟩⟩] ∧
      read tokens = .error e ∧ e.position = some ⟨0, 0⟩ ∧ (FailsAtFirst tokens e ∨ FailsAtEnd tokens e) := by
  refine ⟨⟨_, _, rfl, rfl, ?_, ?_⟩, ⟨_, _, rfl, rfl, rfl, ?_⟩, _, _, rfl, rfl, rfl, ?_⟩
  · exact (read_accepts_balanced _).1.mp ⟨_, rfl⟩
  · exact (read_accepts_balanced _).2.1 _ rfl
  · exact (read_accepts_balanced _).2.2 _ rfl
  · exact (read_accepts_balanced _).2.2 _ rfl

end Item

end StructuralEditor.Scheme
