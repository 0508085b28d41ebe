/-
# Outcomes of steps that may fail

How a computation in `Except` comes to its outcome: two steps in a row succeed if both do, and fail
with the error of the one that fails first; a step for every entry of a list succeeds if all do,
and fails with the error of the first entry that fails. In `Option`, where failures are not told
apart, one entry that fails is enough. A step that changes a state in place also leaves a state when it
fails; if it looks before it changes anything, that is the state it began with.

Key definitions: `look`, `settled`.
Key theorems: `bind_eq_ok`, `bind_eq_error`, `mapM_eq_ok`, `mapM_eq_error`, `mapM_eq_some_map`,
`mapM_eq_none`, `look_bind_settled`.
-/
import Mathlib

namespace GateCircuit
namespace Outcome

variable {ε α β : Type}

theorem bind_eq_ok {x : Except ε α} {f : α → Except ε β} {b : β} :
    (x >>= f) = .ok b ↔ ∃ a, x = .ok a ∧ f a = .ok b := by
  cases x <;> simp [bind, Except.bind]

theorem bind_eq_error {x : Except ε α} {f : α → Except ε β} {e : ε} :
    (x >>= f) = .error e ↔ x = .error e ∨ ∃ a, x = .ok a ∧ f a = .error e := by
  cases x <;> simp [bind, Except.bind]

theorem pure_eq_ok {a b : α} : (pure a : Except ε α) = .ok b ↔ a = b := by
  simp [pure, Except.pure]

theorem pure_ne_error {a : α} {e : ε} : ¬ (pure a : Except ε α) = .error e := by
  simp [pure, Except.pure]

theorem map_eq_error {x : Except ε α} {f : α → β} {e : ε} : f <$> x = .error e ↔ x = .error e := by
  cases x <;> simp [Functor.map, Except.map]

theorem map_eq_ok {x : Except ε α} {f : α → β} {b : β} : x.map f = .ok b ↔ ∃ a, x = .ok a ∧ f a = b := by
  cases x <;> simp [Except.map]

/-- A check passes exactly if its condition holds. -/
theorem check_eq_ok {p : Prop} [Decidable p] {e : ε} :
    (if p then Except.ok () else .error e) = .ok () ↔ p := by
  by_cases h : p <;> simp [h]

theorem toOption_eq_some {x : Except ε α} {a : α} : x.toOption = some a ↔ x = .ok a := by
  cases x <;> simp [Except.toOption]

theorem mapError_eq_ok {ε' : Type} {heading : ε → ε'} {x : Except ε α} {a : α} :
    x.mapError heading = .ok a ↔ x = .ok a := by
  cases x <;> simp [Except.mapError]

theorem mapError_eq_error {ε' : Type} {heading : ε → ε'} {x : Except ε α} {e : ε'} :
    x.mapError heading = .error e ↔ ∃ cause, x = .error cause ∧ e = heading cause := by
  cases x <;> simp [Except.mapError, eq_comm]

/-- A step for every entry succeeds exactly if it does for each, and then lists the results. -/
theorem mapM_eq_ok {f : α → Except ε β} {as : List α} {bs : List β} :
    as.mapM f = .ok bs ↔ List.Forall₂ (fun a b => f a = .ok b) as bs := by
  induction as generalizing bs with
  | nil => rw [List.mapM_nil, pure_eq_ok, List.forall₂_nil_left_iff, eq_comm]
  | cons a as ih =>
    simp only [List.mapM_cons, bind_eq_ok, pure_eq_ok, ih]
    constructor
    · rintro ⟨b, hb, bs', hbs, rfl⟩
      exact .cons hb hbs
    · rintro (_ | ⟨hb, hbs⟩)
      exact ⟨_, hb, _, hbs, rfl⟩

/-- If a step succeeds under a condition, with a result of its own, then all steps do under all
conditions. -/
theorem mapM_eq_ok_map {f : α → Except ε β} {P : α → Prop} {r : α → β}
    (hf : ∀ a b, f a = .ok b ↔ P a ∧ b = r a) {as : List α} {bs : List β} :
    as.mapM f = .ok bs ↔ (∀ a ∈ as, P a) ∧ bs = as.map r := by
  rw [mapM_eq_ok]
  induction as generalizing bs with
  | nil => simp [List.forall₂_nil_left_iff]
  | cons a as ih =>
    rw [List.forall₂_cons_left_iff, List.forall_mem_cons, List.map_cons]
    constructor
    · rintro ⟨b, bs', hb, hbs, rfl⟩
      obtain ⟨ha, rfl⟩ := (hf a b).mp hb
      obtain ⟨has, rfl⟩ := ih.mp hbs
      exact ⟨⟨ha, has⟩, rfl⟩
    · rintro ⟨⟨ha, has⟩, rfl⟩
      exact ⟨_, _, (hf a _).mpr ⟨ha, rfl⟩, ih.mpr ⟨has, rfl⟩, rfl⟩

/-- What every successful step ensures holds of all results. -/
theorem mapM_forall {f : α → Except ε β} {P : β → Prop} {as : List α} {bs : List β}
    (h : as.mapM f = .ok bs) (hf : ∀ a ∈ as, ∀ b, f a = .ok b → P b) : ∀ b ∈ bs, P b := by
  rw [mapM_eq_ok] at h
  induction h with
  | nil => simp
  | cons hab _ ih =>
    have hrest := ih fun a ha => hf a (List.mem_cons_of_mem _ ha)
    exact List.forall_mem_cons.mpr ⟨hf _ List.mem_cons_self _ hab, hrest⟩

/-- A step for every entry fails exactly with the error of the first entry that fails. -/
theorem mapM_eq_error {f : α → Except ε β} {e : ε} {as : List α} :
    as.mapM f = .error e ↔
      ∃ (k : ℕ) (a : α), as[k]? = some a ∧ f a = .error e ∧
        ∀ (j : ℕ) (a' : α), j < k → as[j]? = some a' → ∃ b, f a' = .ok b := by
  induction as with
  | nil =>
    rw [List.mapM_nil]
    simp [pure_ne_error]
  | cons a as ih =>
    simp only [List.mapM_cons, bind_eq_error, pure_ne_error, and_false, exists_false, or_false, ih]
    constructor
    · rintro (h | ⟨b, hb, k, a', hk, ha', hfirst⟩)
      · exact ⟨0, a, rfl, h, fun j _ hj => absurd hj (Nat.not_lt_zero j)⟩
      · refine ⟨k + 1, a', hk, ha', fun j a'' hj hj' => ?_⟩
        cases j with
        | zero =>
          obtain rfl : a = a'' := by simpa using hj'
          exact ⟨b, hb⟩
        | succ j => exact hfirst j a'' (by omega) hj'
    · rintro ⟨k, a', hk, ha', hfirst⟩
      cases k with
      | zero =>
        obtain rfl : a = a' := by simpa using hk
        exact .inl ha'
      | succ k =>
        obtain ⟨b, hb⟩ := hfirst 0 a (by omega) rfl
        exact .inr ⟨b, hb, k, a', hk, ha', fun j a'' hj hj' => hfirst (j + 1) a'' (by omega) hj'⟩

/-! ### Optional results -/

section Option

variable {f : α → Option β} {as : List α}

/-- If a step has a result for every entry, the results are listed. -/
theorem mapM_eq_some_map {g : α → β} (h : ∀ a ∈ as, f a = some (g a)) :
    as.mapM f = some (as.map g) := by
  induction as with
  | nil => rfl
  | cons a as ih =>
    obtain ⟨ha, has⟩ := List.forall_mem_cons.mp h
    rw [List.mapM_cons, ha, ih has]
    rfl

theorem mapM_eq_none {a : α} (ha : a ∈ as) (h : f a = none) : as.mapM f = none := by
  induction as with
  | nil => cases ha
  | cons b as ih =>
    rw [List.mapM_cons]
    rcases List.mem_cons.mp ha with rfl | ha
    · rw [h]
      rfl
    · rw [ih ha]
      cases f b <;> rfl

theorem mapM_congr {as' : List α} (h : List.Forall₂ (fun a a' => f a = f a') as as') :
    as.mapM f = as'.mapM f := by
  induction h with
  | nil => rfl
  | cons ha _ ih => rw [List.mapM_cons, List.mapM_cons, ha, ih]

end Option

/-! ### Steps in place -/

section InPlace

variable {σ : Type} {s t : σ} {e : ε}

/-- Finds something out about a state, and changes nothing. -/
def look (f : σ → Except ε α) : EStateM ε σ α :=
  fun s =>
    match f s with
    | .ok a => .ok a s
    | .error e => .error e s

/-- What a step in place ends with, given what it is to make of the state. -/
def settled (s : σ) : Except ε σ → EStateM.Result ε σ Unit
  | .ok t => .ok () t
  | .error e => .error e s

theorem look_bind (f : σ → Except ε α) (k : α → EStateM ε σ β) (s : σ) :
    (look f >>= k) s =
      match f s with
      | .ok a => k a s
      | .error e => .error e s := by
  show EStateM.bind (look f) k s = _
  unfold EStateM.bind look
  cases f s <;> rfl

/-- A check in front goes with the step. -/
theorem look_bind_settled {f : σ → Except ε α} {k : α → EStateM ε σ Unit} {k' : α → Except ε σ}
    (h : ∀ a, f s = .ok a → k a s = settled s (k' a)) :
    (look f >>= k) s = settled s (f s >>= k') := by
  rw [look_bind]
  cases hf : f s with
  | ok a => exact h a hf
  | error e => rfl

theorem settled_eq_ok {x : Except ε σ} : settled s x = .ok () t ↔ x = .ok t := by
  cases x <;> simp [settled]

/-- A step that fails has changed nothing. -/
theorem settled_eq_error {x : Except ε σ} : settled s x = .error e t ↔ t = s ∧ x = .error e := by
  cases x <;> simp [settled, eq_comm, and_comm]

end InPlace

end Outcome
end GateCircuit
