import Mathlib.Order.Basic
import Mathlib.Algebra.Order.Group.Nat

/-!
Total correctness of programs that may fault. `Ends m post fails` says that `m`
comes to a result that satisfies `post` or to an error that satisfies `fails`;
`Returns m post`, that it comes to a result. There is one rule for sequencing and
one for loops, whose variant has to decrease at every turn.
-/

namespace Total

universe u
variable {ε σ ρ : Type*} {α β : Type u}

def Returns (m : Except ε α) (post : α → Prop) : Prop := ∃ a, m = .ok a ∧ post a

def Ends (m : Except ε α) (post : α → Prop) (fails : ε → Prop) : Prop :=
  match m with
  | .ok a => post a
  | .error e => fails e

/-- Turns until one of them ends with a result, `fuel` of them at most. -/
def loop (outOfFuel : ε) (turn : σ → Except ε (σ ⊕ ρ)) : Nat → σ → Except ε ρ
  | 0, _ => .error outOfFuel
  | fuel + 1, s =>
      match turn s with
      | .error e => .error e
      | .ok (.inl s') => loop outOfFuel turn fuel s'
      | .ok (.inr r) => .ok r

section Ends

variable {m m' : Except ε α} {post weaker : α → Prop} {fails fails' : ε → Prop}

theorem Ends.ok {a : α} (h : post a) : Ends (.ok a : Except ε α) post fails := h

theorem Ends.error {e : ε} (h : fails e) : Ends (.error e : Except ε α) post fails := h

theorem Returns.ends (h : Returns m post) : Ends m post fails := by
  obtain ⟨a, rfl, holds⟩ := h
  exact holds

/-- Where no error is possible, there is a result. -/
theorem Ends.returns (h : Ends m post fun _ => False) : Returns m post := by
  cases m with
  | ok a => exact ⟨a, rfl, h⟩
  | error e => exact h.elim

theorem Ends.mono (h : Ends m post fails) (imp : ∀ a, post a → weaker a)
    (imp' : ∀ e, fails e → fails' e) : Ends m weaker fails' := by
  cases m with
  | ok a => exact imp a h
  | error e => exact imp' e h

theorem Ends.bind {f : α → Except ε β} {mid : α → Prop} {post : β → Prop}
    (first : Ends m mid fails) (rest : ∀ a, mid a → Ends (f a) post fails) :
    Ends (m >>= f) post fails := by
  cases m with
  | ok a => exact rest a first
  | error e => exact first

theorem Ends.map {f : α → β} {post : β → Prop} (h : Ends m (fun a => post (f a)) fails) :
    Ends (f <$> m) post fails := by
  cases m with
  | ok a => exact h
  | error e => exact h

theorem Ends.ite {c : Prop} [Decidable c] (yes : c → Ends m post fails)
    (no : ¬c → Ends m' post fails) : Ends (if c then m else m') post fails := by
  by_cases h : c
  · rw [if_pos h]
    exact yes h
  · rw [if_neg h]
    exact no h

/-- A loop ends when every turn keeps `inv` and decreases `variant` or ends itself. -/
theorem Ends.loop {outOfFuel : ε} {turn : σ → Except ε (σ ⊕ ρ)} (inv : σ → Prop)
    (variant : σ → Nat) {post : ρ → Prop}
    (step : ∀ s, inv s →
      Ends (turn s) (Sum.elim (fun s' => inv s' ∧ variant s' < variant s) post) fails)
    {fuel : Nat} {s : σ} (start : inv s) (enough : variant s < fuel) :
    Ends (loop outOfFuel turn fuel s) post fails := by
  induction fuel generalizing s with
  | zero => exact absurd enough (Nat.not_lt_zero _)
  | succ fuel ih =>
      have turned := step s start
      rw [Total.loop]
      cases run : turn s with
      | error e =>
          rw [run] at turned
          exact turned
      | ok next =>
          rw [run] at turned
          cases next with
          | inl s' => exact ih turned.1 (turned.2.trans_le (Nat.le_of_lt_succ enough))
          | inr r => exact turned

end Ends

theorem Returns.ok {a : α} {post : α → Prop} (h : post a) :
    Returns (.ok a : Except ε α) post := ⟨a, rfl, h⟩

theorem Returns.of_eq {m : Except ε α} {a : α} {post : α → Prop} (run : m = .ok a) (h : post a) :
    Returns m post := ⟨a, run, h⟩

theorem returns_eq {m : Except ε α} {a : α} (run : m = .ok a) : Returns m (· = a) :=
  Returns.of_eq run rfl

theorem Returns.mono {m : Except ε α} {post weaker : α → Prop} (h : Returns m post)
    (imp : ∀ a, post a → weaker a) : Returns m weaker :=
  (h.ends.mono imp fun _ => id).returns

theorem Returns.bind {m : Except ε α} {f : α → Except ε β} {mid : α → Prop} {post : β → Prop}
    (first : Returns m mid) (rest : ∀ a, mid a → Returns (f a) post) :
    Returns (m >>= f) post :=
  (first.ends.bind fun a h => (rest a h).ends).returns

theorem Returns.ite {c : Prop} [Decidable c] {m m' : Except ε α} {post : α → Prop}
    (yes : c → Returns m post) (no : ¬c → Returns m' post) :
    Returns (if c then m else m') post :=
  (Ends.ite (fun h => (yes h).ends) fun h => (no h).ends).returns

/-- What a call returns is determined, so a second description of it holds as well. -/
theorem Returns.holds {m : Except ε α} {a : α} {post : α → Prop} (h : Returns m post)
    (run : m = .ok a) : post a := by
  obtain ⟨b, run', holds⟩ := h
  rw [run] at run'
  cases run'
  exact holds

theorem Returns.loop {outOfFuel : ε} {turn : σ → Except ε (σ ⊕ ρ)} (inv : σ → Prop)
    (variant : σ → Nat) {post : ρ → Prop}
    (step : ∀ s, inv s →
      Returns (turn s) (Sum.elim (fun s' => inv s' ∧ variant s' < variant s) post))
    {fuel : Nat} {s : σ} (start : inv s) (enough : variant s < fuel) :
    Returns (loop outOfFuel turn fuel s) post :=
  (Ends.loop inv variant (fun s h => (step s h).ends) start enough).returns

end Total
