import StructuralEditor.Proofs.Scheme.Excerpts
import StructuralEditor.Proofs.Scheme.Forest

/-!
# Texts with the same beginning

* `Scans.exists_upto`, `Scans.of_head` : scanning up to the end of a token, whatever is behind the next character;
* `Token.exists_beginning` : texts that begin alike begin with the same tokens;
* `Item.Nested.exists_split`, `Item.Nested.exists_append_of_read` : and those with the same items;
* `exists_beginning_of_codeRoot` : a root depends only on the text up to its end and on the next character.
-/

namespace StructuralEditor.Scheme

/-! ## Tokens -/

namespace Scans

variable {p : Position} {passed rest : List Char} {tokens : List Token}

theorem of_head (h : Scans p passed tokens rest) {rest' : List Char} (hhead : ∀ c ∈ rest'.head?, c ∈ rest.head?) :
    Scans p passed tokens rest' := by
  induction h with
  | done p rest => exact .done p rest'
  | blank c hc _ ih => exact .blank c hc (ih hhead)
  | @lexeme p raw passed rest tokens lexeme hstands _ ih =>
    refine .lexeme lexeme (hstands.of_head fun c hc => ?_) (ih hhead)
    cases passed with
    | nil => exact hhead c hc
    | cons d passed => exact hc

theorem exists_upto {before : List Token} {last : Token} (h : Scans p passed (before ++ last :: tokens) rest) :
    ∃ first more, passed = first ++ more ∧ last.span.stop = p.after first ∧
      Scans p first (before ++ [last]) (more ++ rest) := by
  induction before generalizing p passed with
  | nil =>
    obtain ⟨lexeme, span⟩ := last
    obtain ⟨blanks, raw, more, rfl, hblanks, rfl, hstands, -⟩ := h.exists_first
    have hraw : Scans (p.after blanks) (raw ++ []) _ (more ++ rest) := .lexeme lexeme hstands (.done _ _)
    rw [List.append_nil, ← Position.after_append] at hraw
    exact ⟨blanks ++ raw, more, by simp, rfl, .of_blanks hblanks hraw⟩
  | cons token before ih =>
    obtain ⟨lexeme, span⟩ := token
    obtain ⟨blanks, raw, more, rfl, hblanks, rfl, hstands, hscans⟩ := h.exists_first
    obtain ⟨first, more, rfl, hstop, hfirst⟩ := ih hscans
    refine ⟨blanks ++ (raw ++ first), more, by simp, ?_, .of_blanks hblanks ?_⟩
    · rw [hstop, ← List.append_assoc, Position.after_append p (blanks ++ raw)]
    · rw [Position.after_append] at hfirst ⊢
      rw [List.append_assoc] at hstands
      exact .lexeme lexeme hstands hfirst

end Scans

/-- Texts that have in common what is up to the end of a token, and the next character, have the tokens up to it in
common. -/
theorem Token.exists_beginning {source : String} {before behind : List Token} {last : Token}
    (h : tokenize source = .ok (before ++ last :: behind)) :
    ∃ first rest, source.toList = first ++ rest ∧ last.span.stop = Position.zero.after first ∧
      ∀ {source' : String} {rest' : List Char} {tokens : List Token}, source'.toList = first ++ rest' →
        (∀ c ∈ rest'.head?, c ∈ rest.head?) → tokenize source' = .ok tokens →
        ∃ more, tokens = before ++ last :: more := by
  obtain ⟨first, rest, hsource, hstop, hscans⟩ := (scan_eq_ok_iff.mp h).exists_upto
  rw [List.append_nil] at hscans
  refine ⟨first, rest, hsource, hstop, fun {source' rest' tokens} hsource' hhead htokens => ?_⟩
  rw [tokenize, hsource', scan_append (hscans.of_head hhead)] at htokens
  cases hmore : scan (Position.zero.after first) rest' with
  | error e =>
    rw [hmore] at htokens
    cases htokens
  | ok more =>
    rw [hmore] at htokens
    cases htokens
    exact ⟨more, List.append_assoc ..⟩

/-! ## Items -/

namespace Item

theorem Nested.exists_split {n : Nat} {tokens : List Token} {items others : List Item}
    (h : Nested n tokens (items ++ others)) :
    ∃ before behind, tokens = before ++ behind ∧ Nested n before items ∧ Nested n behind others := by
  induction items generalizing tokens with
  | nil => exact ⟨[], tokens, rfl, .nil, h⟩
  | cons item items ih =>
    cases h with
    | atom text span hrest =>
      obtain ⟨before, behind, rfl, hitems, hothers⟩ := ih hrest
      exact ⟨_, behind, rfl, .atom text span hitems, hothers⟩
    | string text span hrest =>
      obtain ⟨before, behind, rfl, hitems, hothers⟩ := ih hrest
      exact ⟨_, behind, rfl, .string text span hitems, hothers⟩
    | comment text span hrest =>
      obtain ⟨before, behind, rfl, hitems, hothers⟩ := ih hrest
      exact ⟨_, behind, rfl, .comment text span hitems, hothers⟩
    | list bracket opened closed hinner hrest =>
      obtain ⟨before, behind, rfl, hitems, hothers⟩ := ih hrest
      exact ⟨_, behind, by simp, .list bracket opened closed hinner hitems, hothers⟩

/-- What is read starts with the items that the first tokens spell. -/
theorem Nested.exists_append_of_read {before behind : List Token} {items all : List Item}
    (h : Nested maxNesting before items) (hread : read (before ++ behind) = .ok all) :
    ∃ more, all = items ++ more := by
  rw [read, h.readFrom_append (by simp)] at hread
  obtain ⟨more, -, rfl⟩ := closes_of_readFrom hread (Nat.zero_le _)
  exact ⟨more, by simp⟩

/-- A datum of items is that of one of them, and those before it have the data before it. -/
theorem exists_item_of_data {items : List Item} {k : Nat} {datum : Datum} (h : (data items)[k]? = some datum) :
    ∃ before item behind, items = before ++ item :: behind ∧ item.datum? = some datum ∧ (data before).length = k := by
  rw [data_eq_filterMap] at h
  simp only [data_eq_filterMap]
  induction items generalizing k with
  | nil => cases h
  | cons item items ih =>
    cases hitem : item.datum? with
    | none =>
      rw [List.filterMap_cons_none hitem] at h
      obtain ⟨before, found, behind, rfl, hfound, hlength⟩ := ih h
      exact ⟨item :: before, found, behind, rfl, hfound, by rwa [List.filterMap_cons_none hitem]⟩
    | some d =>
      rw [List.filterMap_cons_some hitem] at h
      cases k with
      | zero =>
        cases h
        exact ⟨[], item, items, rfl, hitem, rfl⟩
      | succ k =>
        obtain ⟨before, found, behind, rfl, hfound, hlength⟩ := ih h
        refine ⟨item :: before, found, behind, rfl, hfound, ?_⟩
        rw [List.filterMap_cons_some hitem, List.length_cons, hlength]

end Item

/-! ## Roots -/

theorem exists_getElem?_of_forall₂ {α β : Type} {R : α → β → Prop} {as : List α} {bs : List β}
    (h : List.Forall₂ R as bs) {k : Nat} {a : α} (ha : as[k]? = some a) : ∃ b, bs[k]? = some b ∧ R a b := by
  obtain ⟨hk, rfl⟩ := List.getElem?_eq_some_iff.mp ha
  have hk' : k < bs.length := h.length_eq ▸ hk
  exact ⟨bs[k], List.getElem?_eq_getElem hk', h.get hk hk'⟩

/-- A root that is no comment depends only on the text up to its end and on the next character: whatever else follows
there, the root with its number among those that are no comments is the same draft. -/
theorem exists_beginning_of_codeRoot {depth serial : Nat} {source : String} {t : Tree}
    (h : parse depth serial source = .ok t) {k root : Nat} (hroot : t.codeRoots[k]? = some root) :
    ∃ first rest d, source.toList = first ++ rest ∧ (t.span root).stop = Position.zero.after first ∧
      t.table.Spells root d ∧
      ∀ {depth' serial' : Nat} {source' : String} {rest' : List Char} {t' : Tree}, source'.toList = first ++ rest' →
        (∀ c ∈ rest'.head?, c ∈ rest.head?) → parse depth' serial' source' = .ok t' →
        ∃ root', t'.codeRoots[k]? = some root' ∧ t'.table.Spells root' d := by
  obtain ⟨-, tokens, items, htokens, hitems, hstands⟩ := isForest_of_parse h
  obtain ⟨datum, hdatum, hspan, d, hdraft, hspells⟩ := exists_getElem?_of_forall₂ hstands hroot
  obtain ⟨before, item, behind, rfl, hitem, rfl⟩ := Item.exists_item_of_data hdatum
  rw [← List.singleton_append, ← List.append_assoc] at hitems
  obtain ⟨upto, others, rfl, hupto, -⟩ := (Item.read_eq_ok_iff.mp hitems).exists_split
  obtain ⟨ahead, block, rfl, -, hblock⟩ := hupto.exists_split
  have htiled := Token.tiled_of_scans (Token.scan_eq_ok_iff.mp htokens)
  have hrow : block <:+: ahead ++ block ++ others := ⟨ahead, others, rfl⟩
  obtain ⟨-, last, hlast, hstop⟩ := hblock.extent (fun token hmem => (htiled.positions token (hrow.subset hmem)).2.2)
    (htiled.apart.sublist hrow.sublist)
  obtain ⟨block, rfl⟩ := List.getLast?_eq_some_iff.mp hlast
  simp only [← List.append_assoc] at hupto
  rw [← List.append_assoc, List.append_assoc, List.singleton_append] at htokens
  obtain ⟨first, rest, hsource, hfirst, hsame⟩ := Token.exists_beginning htokens
  refine ⟨first, rest, d, hsource, ?_, hspells, fun hsource' hhead hparse => ?_⟩
  · rw [hspan, ← Item.span_of_datum? hitem, ← hstop, hfirst]
  · obtain ⟨-, tokens', items', htokens', hitems', hstands'⟩ := isForest_of_parse hparse
    obtain ⟨more, rfl⟩ := hsame hsource' hhead htokens'
    rw [← List.singleton_append, ← List.append_assoc] at hitems'
    obtain ⟨others', rfl⟩ := hupto.exists_append_of_read hitems'
    have hdatum' : (Item.data (before ++ [item] ++ others'))[(Item.data before).length]? = some datum := by
      simp [Item.data_eq_filterMap, hitem]
    obtain ⟨root', hroot', -, d', hdraft', hspells'⟩ := exists_getElem?_of_forall₂ hstands'.flip hdatum'
    cases hdraft.symm.trans hdraft'
    exact ⟨root', hroot', hspells'⟩

end StructuralEditor.Scheme
