import StructuralEditor.Proofs.Buffer.Offset
import StructuralEditor.Proofs.Outcome

/-!
# Batches of edits

A batch is carried out as one splice of the text it is expressed against, or not at all.

* `Buffer.Accepts` : the edits lie in the text and, in the order of their offsets, do not overlap;
* `Buffer.splice` : the text with every edited stretch replaced and everything between them kept;
* `Buffer.replaceAll?` : the replacements one after the other by bytes, which is undefined as soon as a
  stretch is not one of the text at hand;
* `Buffer.apply_iff_splice` : what applying a batch does.
-/

namespace StructuralEditor.Buffer

/-! ## What a batch should do -/

def HasPosition (b : Buffer) (p : Position) : Prop :=
  ∃ beginning, beginning <+: b.chars ∧ Position.zero.after beginning = p

def offsetOf (b : Buffer) (p : Position) : Nat :=
  match b.offset p with
  | .ok n => n
  | .error _ => 0

def between (b : Buffer) (start stop : Nat) : String :=
  String.Pos.Raw.extract b.text ⟨start⟩ ⟨stop⟩

/-- The order of edits by their offsets: by start, then by end. -/
def inOrder (b : Buffer) (e f : Edit) : Bool :=
  b.offsetOf e.start < b.offsetOf f.start ||
    b.offsetOf e.start == b.offsetOf f.start && b.offsetOf e.stop ≤ b.offsetOf f.stop

/-- The edits sorted by their offsets; edits with the same offsets stay in the order of the batch. -/
def sorted (b : Buffer) (edits : List Edit) : List Edit := edits.mergeSort b.inOrder

/-- The edits are stretches of the text, and none of them, sorted, starts before the one before it ends. -/
structure Accepts (b : Buffer) (edits : List Edit) : Prop where
  within : ∀ e ∈ edits, e.start ≤ e.stop ∧ b.HasPosition e.start ∧ b.HasPosition e.stop
  apart : (b.sorted edits).IsChain fun e f => b.offsetOf e.stop ≤ b.offsetOf f.start

/-- The text from an offset on, with the given stretches after it replaced. -/
def splice (b : Buffer) (start : Nat) : List Edit → String
  | [] => b.between start b.text.utf8ByteSize
  | e :: rest => b.between start (b.offsetOf e.start) ++ e.text ++ b.splice (b.offsetOf e.stop) rest

def record (b : Buffer) (e : Edit) : Change :=
  ⟨e.start, e.stop, e.text, b.between (b.offsetOf e.start) (b.offsetOf e.stop)⟩

/-- A stretch of a text by its offsets, which must be in order and between characters. -/
def slice? (text : String) (start stop : Nat) : Option String :=
  if start ≤ stop ∧ String.Pos.Raw.IsValid text ⟨start⟩ ∧ String.Pos.Raw.IsValid text ⟨stop⟩ then
    some (String.Pos.Raw.extract text ⟨start⟩ ⟨stop⟩)
  else none

/-- The replacements one after the other, each at the offsets that its stretch has in `b`. -/
def replaceAll? (b : Buffer) : List Edit → String → Option (String × List Change)
  | [], text => some (text, [])
  | e :: rest, text => do
    let before ← slice? text 0 (b.offsetOf e.start)
    let removed ← slice? text (b.offsetOf e.start) (b.offsetOf e.stop)
    let behind ← slice? text (b.offsetOf e.stop) text.utf8ByteSize
    let (final, changes) ← b.replaceAll? rest (before ++ e.text ++ behind)
    return (final, ⟨e.start, e.stop, e.text, removed⟩ :: changes)

/-! ## Offsets of positions -/

variable {b : Buffer}

theorem hasPosition_iff {p : Position} : b.HasPosition p ↔ ∃ i, b.index? p = .ok i := by
  constructor
  · rintro ⟨beginning, hpre, h⟩
    refine ⟨beginning.length, index?_eq_ok_iff.mpr ⟨hpre.length_le, ?_⟩⟩
    rw [← List.prefix_iff_eq_take.mp hpre, h]
  · rintro ⟨i, hi⟩
    exact ⟨b.chars.take i, List.take_prefix _ _, (index?_eq_ok_iff.mp hi).2⟩

theorem offsetOf_of_index? {p : Position} {i : Nat} (h : b.index? p = .ok i) :
    b.offsetOf p = String.utf8Len (b.chars.take i) := by
  rw [offsetOf, offset_of_index? h]

theorem offsetOf_le_iff {p q : Position} {i j : Nat} (hp : b.index? p = .ok i) (hq : b.index? q = .ok j) :
    b.offsetOf p ≤ b.offsetOf q ↔ i ≤ j := by
  rw [offsetOf_of_index? hp, offsetOf_of_index? hq]
  exact utf8Len_take_le_iff (index?_eq_ok_iff.mp hp).1 (index?_eq_ok_iff.mp hq).1

theorem ofList_chars (b : Buffer) : String.ofList b.chars = b.text := String.ofList_toList

theorem between_of_index? {p q : Position} {i j : Nat} (hp : b.index? p = .ok i) (hq : b.index? q = .ok j)
    (hij : i ≤ j) : b.between (b.offsetOf p) (b.offsetOf q) = String.ofList ((b.chars.take j).drop i) := by
  rw [between, offsetOf_of_index? hp, offsetOf_of_index? hq, ← ofList_chars]
  exact extract_take _ hij

theorem index?_after {head rest : List Char} (h : b.chars = head ++ rest) :
    b.index? (Position.zero.after head) = .ok head.length := by
  rw [index?_eq_ok_iff, h, List.take_left]
  exact ⟨by simp, rfl⟩

theorem hasPosition_after {head rest : List Char} (h : b.chars = head ++ rest) :
    b.HasPosition (Position.zero.after head) :=
  hasPosition_iff.mpr ⟨_, index?_after h⟩

theorem slice_after {head text rest : List Char} (h : b.chars = head ++ text ++ rest) :
    b.slice (Position.zero.after head) (Position.zero.after (head ++ text)) = .ok (String.ofList text) := by
  have hle : Position.zero.after head ≤ Position.zero.after (head ++ text) := by
    rw [Position.after_append]
    exact Position.le_after _ text
  have hstart := index?_after (h.trans (List.append_assoc head text rest))
  have hstop := index?_after h
  have hchars : (b.chars.take (head ++ text).length).drop head.length = text := by
    rw [h, List.take_left, List.drop_left]
  rw [slice, if_pos hle, hstart, hstop]
  exact congrArg (fun text => Except.ok (String.ofList text)) hchars

/-! ## Planning -/

/-- The edit is a stretch of the text, and the indices are those of its ends. -/
structure Located.Fits (b : Buffer) (l : Located) : Prop where
  ordered : l.edit.start ≤ l.edit.stop
  start : b.index? l.edit.start = .ok l.start
  stop : b.index? l.edit.stop = .ok l.stop

theorem Located.Fits.start_le_stop {l : Located} (h : l.Fits b) : l.start ≤ l.stop :=
  (index_le_index_iff h.start h.stop).mp h.ordered

theorem Located.Fits.stop_le_length {l : Located} (h : l.Fits b) : l.stop ≤ b.chars.length :=
  (index?_eq_ok_iff.mp h.stop).1

theorem locate_eq_ok_iff {e : Edit} {l : Located} : b.locate e = .ok l ↔ l.edit = e ∧ l.Fits b := by
  unfold locate
  split
  · next hle =>
    constructor
    · intro h
      obtain ⟨start, hstart, h⟩ := ok_bind_iff.mp h
      obtain ⟨stop, hstop, h⟩ := ok_bind_iff.mp h
      obtain rfl := ok_pure_iff.mp h
      exact ⟨rfl, hle, hstart, hstop⟩
    · rintro ⟨rfl, h⟩
      exact ok_bind_iff.mpr ⟨l.start, h.start, ok_bind_iff.mpr ⟨l.stop, h.stop, rfl⟩⟩
  · next hle =>
    constructor
    · intro h
      cases h
    · rintro ⟨rfl, h⟩
      exact absurd h.ordered hle

theorem mapM_locate_eq_ok_iff {edits : List Edit} {ls : List Located} :
    edits.mapM b.locate = .ok ls ↔ ls.map (·.edit) = edits ∧ ∀ l ∈ ls, l.Fits b := by
  rw [ok_mapM_iff]
  simp only [locate_eq_ok_iff]
  induction ls generalizing edits with
  | nil => simp [eq_comm]
  | cons l ls ih =>
    cases edits with
    | nil => simp
    | cons e edits =>
      rw [List.forall₂_cons, ih]
      simp only [List.map_cons, List.cons.injEq, List.forall_mem_cons]
      tauto

theorem exists_fits {e : Edit} (h : e.start ≤ e.stop) (hstart : b.HasPosition e.start)
    (hstop : b.HasPosition e.stop) : ∃ l : Located, l.edit = e ∧ l.Fits b := by
  obtain ⟨i, hi⟩ := hasPosition_iff.mp hstart
  obtain ⟨j, hj⟩ := hasPosition_iff.mp hstop
  exact ⟨⟨e, i, j⟩, rfl, h, hi, hj⟩

theorem exists_all_fit {edits : List Edit}
    (h : ∀ e ∈ edits, e.start ≤ e.stop ∧ b.HasPosition e.start ∧ b.HasPosition e.stop) :
    ∃ ls : List Located, ls.map (·.edit) = edits ∧ ∀ l ∈ ls, l.Fits b := by
  induction edits with
  | nil => exact ⟨[], rfl, by simp⟩
  | cons e edits ih =>
    obtain ⟨he, hrest⟩ := List.forall_mem_cons.mp h
    obtain ⟨l, rfl, hl⟩ := exists_fits he.1 he.2.1 he.2.2
    obtain ⟨ls, rfl, hls⟩ := ih hrest
    exact ⟨l :: ls, rfl, List.forall_mem_cons.mpr ⟨hl, hls⟩⟩

theorem checkDisjoint_eq_ok_iff {ls : List Located} :
    checkDisjoint ls = .ok () ↔ ls.IsChain fun a c => a.edit.stop ≤ c.edit.start := by
  fun_induction checkDisjoint ls with
  | case1 a c rest h ih => rw [ih, List.isChain_cons_cons, and_iff_right h]
  | case2 a c rest h => simp [h]
  | case3 ls h =>
    match ls, h with
    | [], _ => simp
    | [a], _ => simp
    | a :: c :: rest, h => exact absurd rfl (h a c rest)

theorem precedes_eq_inOrder {a c : Located} (ha : a.Fits b) (hc : c.Fits b) :
    a.precedes c = b.inOrder a.edit c.edit := by
  have hstart := offsetOf_le_iff ha.start hc.start
  have hstart' := offsetOf_le_iff hc.start ha.start
  have hstop := offsetOf_le_iff ha.stop hc.stop
  rw [Bool.eq_iff_iff]
  simp only [Located.precedes, inOrder, Bool.or_eq_true, Bool.and_eq_true, decide_eq_true_eq, beq_iff_eq]
  omega

theorem map_edit_mergeSort {ls : List Located} (h : ∀ l ∈ ls, l.Fits b) :
    (ls.mergeSort Located.precedes).map (·.edit) = b.sorted (ls.map (·.edit)) :=
  List.map_mergeSort fun _ ha _ hc => precedes_eq_inOrder (h _ ha) (h _ hc)

theorem isChain_edit_iff {ls : List Located} (h : ∀ l ∈ ls, l.Fits b) :
    ls.IsChain (fun a c => a.edit.stop ≤ c.edit.start) ↔
      (ls.map (·.edit)).IsChain fun e f => b.offsetOf e.stop ≤ b.offsetOf f.start := by
  induction ls with
  | nil => simp
  | cons a ls ih =>
    cases ls with
    | nil => simp
    | cons c ls =>
      have ha := h a (by simp)
      have hc := h c (by simp)
      rw [List.map_cons, List.map_cons, List.isChain_cons_cons, List.isChain_cons_cons, ← List.map_cons,
        ih fun l hl => h l (List.mem_cons_of_mem a hl), index_le_index_iff ha.stop hc.start,
        offsetOf_le_iff ha.stop hc.start]

/-- A planned batch is one to accept, and the plan has its edits in the order of their offsets. -/
theorem accepts_of_plan {edits : List Edit} {ls : List Located} (h : b.plan edits = .ok ls) :
    b.Accepts edits ∧ ls.map (·.edit) = b.sorted edits ∧ ∀ l ∈ ls, l.Fits b := by
  obtain ⟨located, hlocated, h⟩ := ok_bind_iff.mp h
  obtain ⟨⟨⟩, hdisjoint, h⟩ := ok_bind_iff.mp h
  obtain rfl := ok_pure_iff.mp h
  obtain ⟨rfl, hfits⟩ := mapM_locate_eq_ok_iff.mp hlocated
  have hsorted : ∀ l ∈ located.mergeSort Located.precedes, l.Fits b :=
    fun l hl => hfits l (List.mem_mergeSort.mp hl)
  refine ⟨⟨?_, ?_⟩, map_edit_mergeSort hfits, hsorted⟩
  · intro e he
    obtain ⟨l, hl, rfl⟩ := List.mem_map.mp he
    have := hfits l hl
    exact ⟨this.ordered, hasPosition_iff.mpr ⟨_, this.start⟩, hasPosition_iff.mpr ⟨_, this.stop⟩⟩
  · rw [← map_edit_mergeSort hfits]
    exact (isChain_edit_iff hsorted).mp (checkDisjoint_eq_ok_iff.mp hdisjoint)

theorem exists_plan {edits : List Edit} (h : b.Accepts edits) : ∃ ls, b.plan edits = .ok ls := by
  obtain ⟨located, rfl, hfits⟩ := exists_all_fit h.within
  have hsorted : ∀ l ∈ located.mergeSort Located.precedes, l.Fits b :=
    fun l hl => hfits l (List.mem_mergeSort.mp hl)
  have hchain := h.apart
  rw [← map_edit_mergeSort hfits, ← isChain_edit_iff hsorted] at hchain
  refine ⟨located.mergeSort Located.precedes, ?_⟩
  refine ok_bind_iff.mpr ⟨located, mapM_locate_eq_ok_iff.mpr ⟨rfl, hfits⟩, ?_⟩
  exact ok_bind_iff.mpr ⟨(), checkDisjoint_eq_ok_iff.mpr hchain, rfl⟩

theorem plan_of_pairwise {edits : List Edit} {ls : List Located} (hls : edits.mapM b.locate = .ok ls)
    (horder : ls.Pairwise fun a b => a.precedes b = true) (hdisjoint : checkDisjoint ls = .ok ()) :
    b.plan edits = .ok ls := by
  refine ok_bind_iff.mpr ⟨ls, hls, ?_⟩
  rw [List.mergeSort_of_pairwise horder]
  exact ok_bind_iff.mpr ⟨(), hdisjoint, rfl⟩

/-! ## Performing -/

/-- The located edits follow each other from index `k` on in a text of `n` characters. -/
def Follow (n : Nat) : Nat → List Located → Prop
  | k, [] => k ≤ n
  | k, l :: rest => k ≤ l.start ∧ l.start ≤ l.stop ∧ Follow n l.stop rest

theorem Follow.le {n : Nat} : ∀ {k : Nat} {ls : List Located}, Follow n k ls → k ≤ n
  | _, [], h => h
  | _, _ :: _, ⟨hk, hl, h⟩ => Nat.le_trans hk (Nat.le_trans hl h.le)

def Located.record (text : List Char) (l : Located) : Change :=
  ⟨l.edit.start, l.edit.stop, l.edit.text, String.ofList ((text.take l.stop).drop l.start)⟩

/-- The characters from index `k` on, with the given stretches after it replaced. -/
def spliced (text : List Char) : Nat → List Located → List Char
  | k, [] => text.drop k
  | k, l :: rest => (text.take l.start).drop k ++ l.edit.text.toList ++ spliced text l.stop rest

theorem follow_of_fits {ls : List Located} (hfits : ∀ l ∈ ls, l.Fits b)
    (hchain : ls.IsChain fun a c => a.edit.stop ≤ c.edit.start) {k : Nat} (hk : k ≤ b.chars.length)
    (hfirst : ∀ l ∈ ls.head?, k ≤ l.start) : Follow b.chars.length k ls := by
  induction ls generalizing k with
  | nil => exact hk
  | cons l ls ih =>
    have hl := hfits l (by simp)
    refine ⟨hfirst l (by simp), hl.start_le_stop, ?_⟩
    refine ih (fun a ha => hfits a (by simp [ha])) hchain.of_cons hl.stop_le_length fun c hc => ?_
    cases ls with
    | nil => simp at hc
    | cons d ls =>
      obtain rfl : d = c := by simpa using hc
      exact (index_le_index_iff hl.stop (hfits d (by simp)).start).mp (List.isChain_cons_cons.mp hchain).1

theorem performAll_append (ls ms : List Located) (text : List Char) :
    performAll (ls ++ ms) text =
      ((performAll ms (performAll ls text).1).1,
        (performAll ls text).2 ++ (performAll ms (performAll ls text).1).2) := by
  induction ls generalizing text with
  | nil => rfl
  | cons l ls ih => simp [performAll, ih]

theorem take_take_append {text : List Char} (rest : List Char) {i j : Nat} (hij : i ≤ j) (hj : j ≤ text.length) :
    (text.take j ++ rest).take i = text.take i := by
  rw [List.take_append_of_le_length (by simp; omega), List.take_take, Nat.min_eq_left hij]

theorem drop_take_append {text rest : List Char} {j : Nat} (hj : j ≤ text.length) :
    (text.take j ++ rest).drop j = rest :=
  List.drop_left' (by simp [hj])

/-- Edits that follow each other, carried out from the last to the first, leave the text before them alone
and splice the rest: the ones still to come find the text as it was. -/
theorem performAll_reverse {text : List Char} {k : Nat} {ls : List Located} (h : Follow text.length k ls) :
    performAll ls.reverse text = (text.take k ++ spliced text k ls, ls.reverse.map (Located.record text)) := by
  induction ls generalizing k with
  | nil => simp [performAll, spliced]
  | cons l ls ih =>
    obtain ⟨hk, hl, hrest⟩ := h
    have hstop := hrest.le
    rw [List.reverse_cons, performAll_append, ih hrest]
    simp only [performAll, Located.perform, Located.record, List.map_append, List.map_cons, List.map_nil]
    rw [take_take_append _ hl hstop, take_take_append _ (Nat.le_refl _) hstop, drop_take_append hstop, spliced]
    nth_rewrite 1 [take_eq_append text hk]
    simp only [List.append_assoc]

/-! ## By bytes -/

theorem slice?_take {text : List Char} {i j : Nat} (hij : i ≤ j) (hj : j ≤ text.length) :
    slice? (String.ofList text) (String.utf8Len (text.take i)) (String.utf8Len (text.take j)) =
      some (String.ofList ((text.take j).drop i)) := by
  have valid : ∀ k, String.Pos.Raw.IsValid (String.ofList text) ⟨String.utf8Len (text.take k)⟩ := by
    intro k
    rw [String.Pos.Raw.isValid_ofList]
    exact ⟨k, (String.utf8ByteSize_ofList _).symm⟩
  have hle := (utf8Len_take_le_iff (Nat.le_trans hij hj) hj).mpr hij
  rw [slice?, if_pos ⟨hle, valid i, valid j⟩, extract_take text hij]

/-- One replacement by bytes, in a text that is still as in the buffer up to the end of the stretch. -/
theorem replaceAll?_cons {l : Located} (h : l.Fits b) (rest : List Edit) (behind : List Char) :
    b.replaceAll? (l.edit :: rest) (String.ofList (b.chars.take l.stop ++ behind)) =
      (b.replaceAll? rest (String.ofList (b.chars.take l.start ++ l.edit.text.toList ++ behind))).map
        fun (final, changes) => (final, l.record b.chars :: changes) := by
  have hstop := h.stop_le_length
  have hl := h.start_le_stop
  have hlength : l.stop ≤ (b.chars.take l.stop ++ behind).length := by simp [hstop]
  have hstart := take_take_append behind hl hstop
  have hstop' := take_take_append behind (Nat.le_refl _) hstop
  have hbefore := slice?_take (Nat.zero_le l.start) (Nat.le_trans hl hlength)
  have hremoved := slice?_take hl hlength
  have hbehind := slice?_take hlength (Nat.le_refl _)
  rw [hstart] at hbefore hremoved
  rw [hstop'] at hremoved hbehind
  rw [List.take_zero, String.utf8Len_nil, List.drop_zero, ← offsetOf_of_index? h.start] at hbefore
  rw [← offsetOf_of_index? h.start, ← offsetOf_of_index? h.stop] at hremoved
  rw [List.take_length, drop_take_append hstop, ← offsetOf_of_index? h.stop,
    ← String.utf8ByteSize_ofList] at hbehind
  rw [replaceAll?, hbefore, hremoved, hbehind]
  simp only [Option.bind_eq_bind, Option.bind_some, String.ofList_append, String.ofList_toList]
  cases b.replaceAll? rest _ with
  | none => rfl
  | some result => rfl

theorem replaceAll?_append (es fs : List Edit) (text : String) :
    b.replaceAll? (es ++ fs) text = (b.replaceAll? es text).bind fun (middle, changes) =>
      (b.replaceAll? fs middle).map fun (final, more) => (final, changes ++ more) := by
  induction es generalizing text with
  | nil =>
    simp [replaceAll?]
  | cons e es ih =>
    simp only [List.cons_append, replaceAll?, Option.bind_eq_bind]
    cases slice? text 0 (b.offsetOf e.start) with
    | none => rfl
    | some before =>
      cases slice? text (b.offsetOf e.start) (b.offsetOf e.stop) with
      | none => rfl
      | some removed =>
        cases slice? text (b.offsetOf e.stop) text.utf8ByteSize with
        | none => rfl
        | some behind =>
          simp only [Option.bind_some, ih]
          cases b.replaceAll? es (before ++ e.text ++ behind) with
          | none => rfl
          | some middle =>
            simp only [Option.bind_some, Option.pure_def]
            cases b.replaceAll? fs middle.1 <;> rfl

/-- The replacements by bytes are all defined, and they do what the edits do by characters. -/
theorem replaceAll?_reverse {k : Nat} {ls : List Located} (hfits : ∀ l ∈ ls, l.Fits b)
    (h : Follow b.chars.length k ls) :
    b.replaceAll? (ls.reverse.map (·.edit)) b.text =
      some (String.ofList (b.chars.take k ++ spliced b.chars k ls), ls.reverse.map (Located.record b.chars)) := by
  induction ls generalizing k with
  | nil => simp [replaceAll?, spliced, ofList_chars]
  | cons l ls ih =>
    obtain ⟨hk, hl, hrest⟩ := h
    rw [List.reverse_cons, List.map_append, replaceAll?_append,
      ih (fun a ha => hfits a (List.mem_cons_of_mem l ha)) hrest, Option.bind_some, List.map_cons,
      List.map_nil]
    simp only
    rw [replaceAll?_cons (hfits l List.mem_cons_self)]
    nth_rewrite 1 [take_eq_append b.chars hk]
    simp only [replaceAll?, spliced, Option.map_some, List.append_assoc, List.map_append, List.map_cons,
      List.map_nil]

theorem splice_eq_spliced {k : Nat} {ls : List Located} (hfits : ∀ l ∈ ls, l.Fits b)
    (h : Follow b.chars.length k ls) :
    b.splice (String.utf8Len (b.chars.take k)) (ls.map (·.edit)) = String.ofList (spliced b.chars k ls) := by
  induction ls generalizing k with
  | nil =>
    have hend := extract_take b.chars h
    rw [List.take_length, ofList_chars, ← String.utf8ByteSize_ofList b.chars, ofList_chars] at hend
    exact hend
  | cons l ls ih =>
    obtain ⟨hk, hl, hrest⟩ := h
    have hfit := hfits l List.mem_cons_self
    have hgap := extract_take b.chars hk
    rw [ofList_chars] at hgap
    rw [List.map_cons, splice, spliced, offsetOf_of_index? hfit.start, offsetOf_of_index? hfit.stop,
      ih (fun a ha => hfits a (List.mem_cons_of_mem l ha)) hrest, between, hgap, String.ofList_append,
      String.ofList_append, String.ofList_toList]

/-! ## The batch as a whole -/

theorem record_eq {l : Located} (h : l.Fits b) : l.record b.chars = b.record l.edit := by
  rw [Located.record, record, between_of_index? h.start h.stop h.start_le_stop]

/-- A batch that is to be accepted is carried out as one splice, with one record for each edit from the last
to the first, and the replacements on the way are all defined. Any other batch is refused, and the text stays. -/
theorem apply_iff_splice (b : Buffer) (edits : List Edit) :
    (b.Accepts edits →
      b.replaceAll? (b.sorted edits).reverse b.text =
          some (b.splice 0 (b.sorted edits), (b.sorted edits).reverse.map b.record) ∧
        TextBuffer.apply b edits =
          (⟨b.splice 0 (b.sorted edits)⟩, .ok ((b.sorted edits).reverse.map b.record))) ∧
      (¬ b.Accepts edits → ∃ e, TextBuffer.apply b edits = (b, .error e)) := by
  constructor
  · intro hacc
    obtain ⟨ls, hplan⟩ := exists_plan hacc
    obtain ⟨-, hsorted, hfits⟩ := accepts_of_plan hplan
    have hchain := hacc.apart
    rw [← hsorted, ← isChain_edit_iff hfits] at hchain
    have hfollow := follow_of_fits hfits hchain (Nat.zero_le _) fun l _ => Nat.zero_le l.start
    have hrecords : ls.reverse.map (Located.record b.chars) = (b.sorted edits).reverse.map b.record := by
      rw [← hsorted, ← List.map_reverse, List.map_map]
      exact List.map_congr_left fun l hl => record_eq (hfits l (List.mem_reverse.mp hl))
    have hsplice := splice_eq_spliced hfits hfollow
    rw [List.take_zero, String.utf8Len_nil, hsorted] at hsplice
    have hbytes := replaceAll?_reverse hfits hfollow
    rw [List.take_zero, List.nil_append, ← hsplice, hrecords, List.map_reverse, hsorted] at hbytes
    refine ⟨hbytes, ?_⟩
    have happly : b.apply edits = .ok (⟨b.splice 0 (b.sorted edits)⟩, (b.sorted edits).reverse.map b.record) := by
      rw [apply, hplan, hsplice, ← hrecords]
      simp only [bind, Except.bind, performAll_reverse hfollow]
      rfl
    simp only [TextBuffer.apply, happly]
  · intro hacc
    cases happly : b.apply edits with
    | error e => exact ⟨e, by simp only [TextBuffer.apply, happly]⟩
    | ok result =>
      obtain ⟨ls, hplan, -⟩ := ok_bind_iff.mp happly
      exact absurd (accepts_of_plan hplan).1 hacc

end StructuralEditor.Buffer
