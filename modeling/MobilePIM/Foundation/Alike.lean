import Mathlib.Data.Sum.Basic
import MobilePIM.Foundation.Returns

/-!
Two runs side by side. `Alike m m' rel` says that both come to results which `rel`
relates, or to the same error. What a program does not depend on is a relation that
its steps keep. The fuel of a loop is the same in both runs, so it needs no variant.
-/

namespace Total

universe u v
variable {ε σ τ ρ θ : Type*} {α γ : Type u} {β δ : Type v}

def Alike (m : Except ε α) (m' : Except ε β) (rel : α → β → Prop) : Prop :=
  match m, m' with
  | .ok a, .ok b => rel a b
  | .error e, .error e' => e = e'
  | _, _ => False

namespace Alike

variable {m m₁ : Except ε α} {m' m₁' : Except ε β} {rel weaker : α → β → Prop}

theorem ok {a : α} {b : β} (h : rel a b) : Alike (.ok a : Except ε α) (.ok b) rel := h

theorem error (e : ε) : Alike (.error e : Except ε α) (.error e) rel := rfl

/-- What both runs do without a difference. -/
theorem same (m : Except ε α) : Alike m m Eq := by
  cases m with
  | ok a => exact ok rfl
  | error e => exact error e

theorem outcomes (h : Alike m m' rel) :
    (∃ a b, m = .ok a ∧ m' = .ok b ∧ rel a b) ∨ ∃ e, m = .error e ∧ m' = .error e := by
  cases m with
  | ok a =>
      cases m' with
      | ok b => exact .inl ⟨a, b, rfl, rfl, h⟩
      | error e => exact h.elim
  | error e =>
      cases m' with
      | ok b => exact h.elim
      | error e' => exact .inr ⟨e, rfl, congrArg Except.error h.symm⟩

theorem mono (h : Alike m m' rel) (imp : ∀ a b, rel a b → weaker a b) : Alike m m' weaker := by
  cases m with
  | ok a =>
      cases m' with
      | ok b => exact imp a b h
      | error e => exact h
  | error e =>
      cases m' with
      | ok b => exact h
      | error e' => exact h

theorem bind {f : α → Except ε γ} {g : β → Except ε δ} {post : γ → δ → Prop}
    (first : Alike m m' rel) (rest : ∀ a b, rel a b → Alike (f a) (g b) post) :
    Alike (m >>= f) (m' >>= g) post := by
  cases m with
  | ok a =>
      cases m' with
      | ok b => exact rest a b first
      | error e => exact first.elim
  | error e =>
      cases m' with
      | ok b => exact first.elim
      | error e' => exact first

/-- Behind a step without a difference. -/
theorem bind_same {κ ι : Type u} {n : Except ε κ} {f : κ → Except ε α} {g : κ → Except ε ι}
    {post : α → ι → Prop} (rest : ∀ a, n = .ok a → Alike (f a) (g a) post) :
    Alike (n >>= f) (n >>= g) post := by
  cases n with
  | ok a => exact rest a rfl
  | error e => exact error e

theorem ite {c : Prop} [Decidable c] (yes : c → Alike m m' rel) (no : ¬c → Alike m₁ m₁' rel) :
    Alike (if c then m else m₁) (if c then m' else m₁') rel := by
  by_cases h : c
  · rw [if_pos h, if_pos h]
    exact yes h
  · rw [if_neg h, if_neg h]
    exact no h

theorem loop {outOfFuel : ε} {turn : σ → Except ε (σ ⊕ ρ)} {turn' : τ → Except ε (τ ⊕ θ)}
    (inv : σ → τ → Prop) (post : ρ → θ → Prop)
    (step : ∀ s t, inv s t → Alike (turn s) (turn' t) (Sum.LiftRel inv post)) {s : σ} {t : τ}
    (start : inv s t) (fuel : Nat) :
    Alike (Total.loop outOfFuel turn fuel s) (Total.loop outOfFuel turn' fuel t) post := by
  induction fuel generalizing s t with
  | zero => exact error outOfFuel
  | succ fuel ih =>
      have turned := step s t start
      rw [Total.loop, Total.loop]
      cases run : turn s with
      | error e =>
          cases run' : turn' t with
          | error e' =>
              rw [run, run'] at turned
              exact turned
          | ok next' =>
              rw [run, run'] at turned
              exact turned.elim
      | ok next =>
          cases run' : turn' t with
          | error e' =>
              rw [run, run'] at turned
              exact turned.elim
          | ok next' =>
              rw [run, run'] at turned
              cases turned with
              | inl kept => exact ih kept
              | inr done => exact done

end Alike

end Total
