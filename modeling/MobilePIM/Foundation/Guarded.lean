import MobilePIM.Foundation.Returns

/-!
A program with checks beside the one without. `Guarded m m' stops` says that `m` ends
early with a result that satisfies `stops`, or else does exactly what `m'` does, its
errors included. That no error is left to it is another matter.
-/

namespace Total

universe u
variable {ε : Type*} {α β ρ σ θ : Type u}

def Guarded (m m' : Except ε α) (stops : α → Prop) : Prop := (∃ a, m = .ok a ∧ stops a) ∨ m = m'

/-- What a step ends early with is the result of the whole. -/
def Early (stops : ρ → Prop) : α ⊕ ρ → Prop := Sum.elim (fun _ => False) stops

theorem Early.mono {stops weaker : ρ → Prop} (imp : ∀ r, stops r → weaker r) (next : α ⊕ ρ)
    (h : Early stops next) : Early weaker next := by
  cases next with
  | inl a => exact h
  | inr r => exact imp r h

/-- Runs on with `f`, unless `m` has ended early. -/
def andThen (m : Except ε (α ⊕ ρ)) (f : α → Except ε (β ⊕ ρ)) : Except ε (β ⊕ ρ) :=
  m >>= Sum.elim f fun r => .ok (.inr r)

theorem Returns.andThen {m : Except ε (α ⊕ ρ)} {f : α → Except ε (β ⊕ ρ)} {mid : α → Prop}
    {post : β → Prop} {stops : ρ → Prop} (first : Returns m (Sum.elim mid stops))
    (rest : ∀ a, mid a → Returns (f a) (Sum.elim post stops)) :
    Returns (andThen m f) (Sum.elim post stops) := by
  refine Returns.bind first ?_
  intro next spec
  cases next with
  | inl a => exact rest a spec
  | inr r => exact Returns.ok spec

namespace Guarded

variable {m m' : Except ε α} {stops weaker : α → Prop}

theorem refl (m : Except ε α) : Guarded m m stops := Or.inr rfl

theorem stop {a : α} (h : stops a) : Guarded (.ok a : Except ε α) m' stops := Or.inl ⟨a, rfl, h⟩

theorem mono (h : Guarded m m' stops) (imp : ∀ a, stops a → weaker a) : Guarded m m' weaker := by
  obtain ⟨a, run, holds⟩ | same := h
  · exact Or.inl ⟨a, run, imp a holds⟩
  · exact Or.inr same

/-- A check in front of what both do. -/
theorem check {c : Prop} [Decidable c] {a : α} (yes : c → stops a)
    (no : ¬c → Guarded m m' stops) : Guarded (if c then .ok a else m) m' stops := by
  by_cases h : c
  · rw [if_pos h]
    exact stop (yes h)
  · rw [if_neg h]
    exact no h

theorem ite {c : Prop} [Decidable c] {m₁ m₁' : Except ε α} (yes : c → Guarded m m' stops)
    (no : ¬c → Guarded m₁ m₁' stops) :
    Guarded (if c then m else m₁) (if c then m' else m₁') stops := by
  by_cases h : c
  · rw [if_pos h, if_pos h]
    exact yes h
  · rw [if_neg h, if_neg h]
    exact no h

/-- Behind a step that is not checked. -/
theorem bind {n : Except ε β} {f g : β → Except ε α} {mid : β → Prop} {fails : ε → Prop}
    (first : Ends n mid fails) (rest : ∀ b, mid b → Guarded (f b) (g b) stops) :
    Guarded (n >>= f) (n >>= g) stops := by
  cases n with
  | ok b => exact rest b first
  | error e => exact refl _

/-- Behind a step that is checked. -/
theorem andThen {n : Except ε (β ⊕ ρ)} {n' : Except ε β} {f g : β → Except ε (θ ⊕ ρ)}
    {mid : β → Prop} {fails : ε → Prop} {stops : ρ → Prop}
    (checked : Guarded n (Sum.inl <$> n') (Early stops)) (first : Ends n' mid fails)
    (rest : ∀ b, mid b → Guarded (f b) (g b) (Early stops)) :
    Guarded (Total.andThen n f) (n' >>= g) (Early stops) := by
  obtain ⟨next, rfl, early⟩ | rfl := checked
  · cases next with
    | inl b => exact early.elim
    | inr r => exact stop early
  · cases n' with
    | ok b => exact rest b first
    | error e => exact refl _

/-- A loop ends early when one of its turns does; `embed` makes a result of the checked loop
from one of the other. -/
theorem loop {outOfFuel : ε} {turn : σ → Except ε (σ ⊕ ρ)} {turn' : σ → Except ε (σ ⊕ θ)}
    (inv : σ → Prop) (embed : θ → ρ) {stops : ρ → Prop}
    (step : ∀ s, inv s → Guarded (turn s) (Sum.map id embed <$> turn' s) (Early stops))
    (keeps : ∀ s, inv s → Ends (turn' s) (Sum.elim inv fun _ => True) fun _ => True) {s : σ}
    (start : inv s) (fuel : Nat) :
    Guarded (Total.loop outOfFuel turn fuel s) (embed <$> Total.loop outOfFuel turn' fuel s)
      stops := by
  induction fuel generalizing s with
  | zero => exact refl _
  | succ fuel ih =>
      rw [Total.loop, Total.loop]
      obtain ⟨next, run, early⟩ | same := step s start
      · rw [run]
        cases next with
        | inl s' => exact early.elim
        | inr r => exact stop early
      · rw [same]
        have kept := keeps s start
        cases run' : turn' s with
        | error e => exact refl _
        | ok next =>
            rw [run'] at kept
            cases next with
            | inl s' => exact ih kept
            | inr r => exact refl _

end Guarded

end Total
