import Mathlib.Data.List.Forall2

/-!
# Computations that can fail

* `ok_bind_iff`, `error_bind_iff` : when two steps in a row succeed, and which error they end with;
* `mem_toOption_iff`, `isOk_iff` : when a step succeeds with a result, and when with any;
* `ok_mapM_iff`, `error_mapM_iff` : when a step succeeds on every member of a list, and which error it ends with;
* `FailsWith` : what all errors of a computation have in common, step by step.
-/

namespace StructuralEditor

variable {ε α β : Type}

theorem ok_bind_iff {x : Except ε α} {f : α → Except ε β} {r : β} :
    x >>= f = .ok r ↔ ∃ a, x = .ok a ∧ f a = .ok r := by
  cases x with
  | error e =>
    constructor
    · intro h
      cases h
    · rintro ⟨a, h, -⟩
      cases h
  | ok a =>
    constructor
    · intro h
      exact ⟨a, rfl, h⟩
    · rintro ⟨a, h, h'⟩
      cases h
      exact h'

theorem error_bind_iff {x : Except ε α} {f : α → Except ε β} {e : ε} :
    x >>= f = .error e ↔ x = .error e ∨ ∃ a, x = .ok a ∧ f a = .error e := by
  cases x with
  | error e' =>
    constructor
    · intro h
      cases h
      exact .inl rfl
    · rintro (h | ⟨a, h, -⟩)
      · cases h
        rfl
      · cases h
  | ok a =>
    constructor
    · intro h
      exact .inr ⟨a, rfl, h⟩
    · rintro (h | ⟨a', h, h'⟩)
      · cases h
      · cases h
        exact h'

theorem ok_pure_iff {a r : α} : (pure a : Except ε α) = .ok r ↔ a = r := by
  constructor
  · intro h
    cases h
    rfl
  · rintro rfl
    rfl

theorem mem_toOption_iff {x : Except ε α} {a : α} : a ∈ x.toOption ↔ x = .ok a := by
  cases x with
  | error e =>
    constructor
    · intro h
      cases h
    · intro h
      cases h
  | ok b =>
    constructor
    · intro h
      cases h
      rfl
    · intro h
      cases h
      rfl

theorem isOk_iff {x : Except ε α} : x.isOk = true ↔ ∃ a, x = .ok a := by
  cases x with
  | error e =>
    constructor
    · intro h
      cases h
    · rintro ⟨a, h⟩
      cases h
  | ok a => exact ⟨fun _ => ⟨a, rfl⟩, fun _ => rfl⟩

theorem ok_mapM_iff {f : α → Except ε β} {as : List α} {bs : List β} :
    as.mapM f = .ok bs ↔ List.Forall₂ (fun a b => f a = .ok b) as bs := by
  induction as generalizing bs with
  | nil =>
    rw [List.mapM_nil, ok_pure_iff, List.forall₂_nil_left_iff]
    exact eq_comm
  | cons a as ih =>
    rw [List.mapM_cons, ok_bind_iff, List.forall₂_cons_left_iff]
    constructor
    · rintro ⟨b, hb, h⟩
      obtain ⟨bs', hbs, h⟩ := ok_bind_iff.mp h
      exact ⟨b, bs', hb, ih.mp hbs, (ok_pure_iff.mp h).symm⟩
    · rintro ⟨b, bs', hb, hbs, rfl⟩
      exact ⟨b, hb, ok_bind_iff.mpr ⟨bs', ih.mpr hbs, rfl⟩⟩

theorem error_mapM_iff {f : α → Except ε β} {as : List α} {e : ε} : as.mapM f = .error e ↔
    ∃ before a behind, as = before ++ a :: behind ∧ (∀ b ∈ before, ∃ r, f b = .ok r) ∧ f a = .error e := by
  induction as with
  | nil =>
    rw [List.mapM_nil]
    refine iff_of_false nofun ?_
    rintro ⟨before, a, behind, hnil, -⟩
    exact absurd hnil.symm (by simp)
  | cons a as ih =>
    rw [List.mapM_cons, error_bind_iff]
    constructor
    · rintro (ha | ⟨r, hr, h⟩)
      · exact ⟨[], a, as, rfl, nofun, ha⟩
      · rcases error_bind_iff.mp h with h | ⟨_, _, h⟩
        · obtain ⟨before, a', behind, rfl, hbefore, he⟩ := ih.mp h
          exact ⟨a :: before, a', behind, rfl, List.forall_mem_cons.mpr ⟨⟨r, hr⟩, hbefore⟩, he⟩
        · cases h
    · rintro ⟨before, a', behind, hsplit, hbefore, he⟩
      cases before with
      | nil =>
        obtain ⟨rfl, -⟩ := List.cons.inj hsplit
        exact .inl he
      | cons b before =>
        obtain ⟨rfl, rfl⟩ := List.cons.inj hsplit
        obtain ⟨⟨r, hr⟩, hbefore⟩ := List.forall_mem_cons.mp hbefore
        exact .inr ⟨r, hr, error_bind_iff.mpr (.inl (ih.mpr ⟨before, a', behind, rfl, hbefore, he⟩))⟩

/-- Every error of the computation has the property. -/
def FailsWith (Q : ε → Prop) (x : Except ε α) : Prop := ∀ e, x = .error e → Q e

namespace FailsWith

variable {Q : ε → Prop}

theorem ok (a : α) : FailsWith Q (.ok a : Except ε α) := fun _ h => by cases h

theorem error {e : ε} (h : Q e) : FailsWith Q (.error e : Except ε α) := by
  intro e' he'
  cases he'
  exact h

theorem bind {x : Except ε α} {f : α → Except ε β} (hx : FailsWith Q x)
    (hf : ∀ a, x = .ok a → FailsWith Q (f a)) : FailsWith Q (x >>= f) := by
  cases x with
  | error e => exact error (hx e rfl)
  | ok a => exact hf a rfl

theorem mapM {f : α → Except ε β} {as : List α} (h : ∀ a ∈ as, FailsWith Q (f a)) : FailsWith Q (as.mapM f) := by
  induction as with
  | nil => exact ok []
  | cons a as ih =>
    obtain ⟨ha, has⟩ := List.forall_mem_cons.mp h
    rw [List.mapM_cons]
    exact ha.bind fun _ _ => (ih has).bind fun _ _ => ok _

end FailsWith

end StructuralEditor
