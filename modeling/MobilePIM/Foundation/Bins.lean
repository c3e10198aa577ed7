import Mathlib.Data.List.Basic
import Mathlib.Data.List.Induction
import Mathlib.Algebra.BigOperators.Group.List.Basic
import Mathlib.Algebra.GroupWithZero.Nat

/-!
Online packing of a list of items, in order of arrival, with one open bin.
An item that fits joins the open bin; an item that does not fit closes it. The
two disciplines differ only in what the new bin starts with: next-fit starts it
with the rejected item, the lossy discipline starts it empty.
-/

namespace Bins

variable {β : Type*}

def load (size : β → Nat) (bin : List β) : Nat := (bin.map size).sum

/-- Closed bins in order of closing, and the open bin. -/
structure Filling (β : Type*) where
  closed : List (List β)
  current : List β

namespace Filling

def empty : Filling β := ⟨[], []⟩

def all (f : Filling β) : List (List β) := f.closed ++ [f.current]

/-- The bins that are reported: the open bin counts only when it holds an item. -/
def bins (f : Filling β) : List (List β) :=
  if f.current = [] then f.closed else f.closed ++ [f.current]

end Filling

def place (size : β → Nat) (cap : Nat) (reopen : β → List β)
    (f : Filling β) (x : β) : Filling β :=
  if load size f.current + size x ≤ cap then ⟨f.closed, f.current ++ [x]⟩
  else ⟨f.closed ++ [f.current], reopen x⟩

def fill (size : β → Nat) (cap : Nat) (reopen : β → List β) (items : List β) : Filling β :=
  items.foldl (place size cap reopen) Filling.empty

/-- Next-fit: the item that closes a bin is the first one of the next bin. -/
def nextFit (size : β → Nat) (cap : Nat) (items : List β) : List (List β) :=
  (fill size cap (fun x => [x]) items).bins

/-- The lossy discipline: the item that closes a bin is stored nowhere. -/
def dropFit (size : β → Nat) (cap : Nat) (items : List β) : Filling β :=
  fill size cap (fun _ => []) items

variable (size : β → Nat) (cap : Nat)

@[simp] theorem load_nil : load size [] = 0 := rfl

@[simp] theorem load_cons (x : β) (bin : List β) :
    load size (x :: bin) = size x + load size bin := by simp [load]

@[simp] theorem load_append (bin rest : List β) :
    load size (bin ++ rest) = load size bin + load size rest := by simp [load]

theorem load_le_mul {bin : List β} {b : Nat} (h : ∀ x ∈ bin, size x ≤ b) :
    load size bin ≤ bin.length * b := by
  induction bin with
  | nil => simp
  | cons x bin ih =>
      have head := h x (by simp)
      have tail := ih fun y hy => h y (by simp [hy])
      rw [load_cons, List.length_cons, Nat.succ_mul]
      omega

theorem load_eq_mul {bin : List β} {b : Nat} (h : ∀ x ∈ bin, size x = b) :
    load size bin = bin.length * b := by
  rw [load, List.map_congr_left h]
  simp

theorem Filling.bins_flatten (f : Filling β) : f.bins.flatten = f.all.flatten := by
  unfold Filling.bins Filling.all
  split
  · rename_i h; simp [h]
  · rfl

theorem place_fits {reopen : β → List β} {f : Filling β} {x : β}
    (h : load size f.current + size x ≤ cap) :
    place size cap reopen f x = ⟨f.closed, f.current ++ [x]⟩ := if_pos h

theorem place_rejects {reopen : β → List β} {f : Filling β} {x : β}
    (h : cap < load size f.current + size x) :
    place size cap reopen f x = ⟨f.closed ++ [f.current], reopen x⟩ :=
  if_neg (Nat.not_le.mpr h)

theorem fill_snoc (reopen : β → List β) (items : List β) (x : β) :
    fill size cap reopen (items ++ [x]) =
      place size cap reopen (fill size cap reopen items) x := by
  simp [fill, List.foldl_append]

theorem dropFit_snoc (items : List β) (x : β) :
    dropFit size cap (items ++ [x]) =
      place size cap (fun _ => []) (dropFit size cap items) x :=
  fill_snoc size cap _ items x

/-- Next-fit neither drops nor duplicates nor reorders an item. -/
theorem nextFit_flatten (items : List β) : (nextFit size cap items).flatten = items := by
  rw [nextFit, Filling.bins_flatten]
  induction items using List.reverseRecOn with
  | nil => rfl
  | append_singleton items x ih =>
      rw [fill_snoc]
      unfold Filling.all at ih ⊢
      by_cases h : load size (fill size cap (fun x => [x]) items).current + size x ≤ cap
      · rw [place_fits size cap h]
        simp only [List.flatten_append, List.flatten_cons, List.flatten_nil] at ih ⊢
        simp only [List.append_nil, ← List.append_assoc] at ih ⊢
        rw [ih]
      · rw [place_rejects size cap (Nat.not_le.mp h)]
        simp only [List.flatten_append, List.flatten_cons, List.flatten_nil] at ih ⊢
        simp only [List.append_nil] at ih ⊢
        rw [ih]

/-- Items whose total fits the capacity all go to the first bin, whatever the
discipline does with rejected ones. -/
theorem fill_of_load_le (reopen : β → List β) (items : List β) (h : load size items ≤ cap) :
    fill size cap reopen items = ⟨[], items⟩ := by
  induction items using List.reverseRecOn with
  | nil => rfl
  | append_singleton items x ih =>
      simp only [load_append, load_cons, load_nil] at h
      rw [fill_snoc, ih (by omega), place_fits]
      simpa using h

theorem dropFit_contents_snoc (items : List β) (x : β) :
    (dropFit size cap (items ++ [x])).all.flatten =
      (dropFit size cap items).all.flatten ++
        if load size (dropFit size cap items).current + size x ≤ cap then [x] else [] := by
  rw [dropFit_snoc]
  split
  · rename_i h
    rw [place_fits size cap h]
    simp [Filling.all]
  · rename_i h
    rw [place_rejects size cap (Nat.not_le.mp h)]
    simp [Filling.all]

theorem dropFit_sublist (items : List β) : (dropFit size cap items).all.flatten.Sublist items := by
  induction items using List.reverseRecOn with
  | nil => exact List.nil_sublist _
  | append_singleton items x ih =>
      rw [dropFit_contents_snoc]
      split
      · exact ih.append (List.Sublist.refl _)
      · exact ih.append (List.nil_sublist _)

/-- Behind an item that is lost the open bin is empty, so that an item that fits an empty bin is
kept: no two of them in a row are lost. -/
theorem kept_of_lost {f : Filling β} {x y : β} (lost : cap < load size f.current + size x)
    (fits : size y ≤ cap) :
    load size (place size cap (fun _ => []) f x).current + size y ≤ cap := by
  rw [place_rejects size cap lost, load_nil, Nat.zero_add]
  exact fits

/-- Where every item fits an empty bin, at least every second one is kept. -/
theorem length_le_two_mul_dropFit {items : List β} (fits : ∀ x ∈ items, size x ≤ cap) :
    items.length ≤ 2 * (dropFit size cap items).all.flatten.length := by
  -- an item that is lost is counted with the one in front of it, which was kept
  suffices count : ∀ n (items : List β), items.length = n → (∀ x ∈ items, size x ≤ cap) →
      n ≤ 2 * (dropFit size cap items).all.flatten.length from count _ items rfl fits
  intro n
  induction n using Nat.strongRecOn with
  | _ n ih =>
      intro items length_eq fits
      rcases List.eq_nil_or_concat items with rfl | ⟨before, x, rfl⟩
      · exact length_eq ▸ Nat.zero_le _
      rw [List.concat_eq_append] at length_eq fits ⊢
      rw [List.length_append, List.length_singleton] at length_eq
      have fits_before : ∀ y ∈ before, size y ≤ cap := fun y mem => fits y (List.mem_append_left _ mem)
      rw [dropFit_contents_snoc]
      by_cases room : load size (dropFit size cap before).current + size x ≤ cap
      · have kept := ih before.length (by omega) before rfl fits_before
        rw [if_pos room, List.length_append, List.length_singleton]
        omega
      · rw [if_neg room, List.append_nil]
        rcases List.eq_nil_or_concat before with rfl | ⟨earlier, y, rfl⟩
        · exact absurd (fits x (by simp)) (by simpa [dropFit, fill, Filling.empty] using room)
        rw [List.concat_eq_append] at length_eq fits_before room ⊢
        have kept : load size (dropFit size cap earlier).current + size y ≤ cap := by
          by_contra lost
          rw [dropFit_snoc] at room
          exact room (kept_of_lost size cap (Nat.not_le.mp lost) (fits x (by simp)))
        have more := ih earlier.length (by simp at length_eq; omega) earlier rfl
          fun z mem => fits_before z (List.mem_append_left _ mem)
        rw [dropFit_contents_snoc, if_pos kept, List.length_append, List.length_singleton]
        simp only [List.length_append, List.length_singleton] at length_eq
        omega

/-- The lossy discipline keeps every item only when no bin is ever closed. -/
theorem dropFit_contents_eq_iff (items : List β) :
    (dropFit size cap items).all.flatten = items ↔ load size items ≤ cap := by
  constructor
  · intro h
    induction items using List.reverseRecOn with
    | nil => exact Nat.zero_le _
    | append_singleton items x ih =>
        rw [dropFit_contents_snoc] at h
        split at h
        · rename_i hfit
          have kept := ih (List.append_cancel_right h)
          have first : dropFit size cap items = ⟨[], items⟩ :=
            fill_of_load_le size cap _ items kept
          simpa [first] using hfit
        · -- a rejected item leaves fewer items stored than arrived
          have short := (dropFit_sublist size cap items).length_le
          have same := congrArg List.length h
          simp only [List.append_nil, List.length_append, List.length_singleton] at same
          omega
  · intro h
    have first : dropFit size cap items = ⟨[], items⟩ := fill_of_load_le size cap _ items h
    simp [first, Filling.all]

/-- An empty bin is closed exactly by an oversized item that meets an empty open bin. -/
theorem nil_mem_closed_iff (items : List β) :
    [] ∈ (dropFit size cap items).closed ↔
      ∃ pre x post, items = pre ++ x :: post ∧
        (dropFit size cap pre).current = [] ∧ cap < size x := by
  induction items using List.reverseRecOn with
  | nil => simp [dropFit, fill, Filling.empty]
  | append_singleton items x ih =>
      have split_last : ∀ Q : List β → β → Prop,
          (∃ pre y post, items ++ [x] = pre ++ y :: post ∧ Q pre y) ↔
            (∃ pre y post, items = pre ++ y :: post ∧ Q pre y) ∨ Q items x := by
        intro Q
        constructor
        · rintro ⟨pre, y, post, h, hq⟩
          induction post using List.reverseRecOn with
          | nil =>
              obtain ⟨rfl, hy⟩ := List.append_inj' h rfl
              exact Or.inr (by simpa using (List.cons.inj hy).1 ▸ hq)
          | append_singleton post z _ =>
              have h' : items ++ [x] = (pre ++ y :: post) ++ [z] := by simpa using h
              exact Or.inl ⟨pre, y, post, (List.append_inj' h' rfl).1, hq⟩
        · rintro (⟨pre, y, post, rfl, hq⟩ | hq)
          · exact ⟨pre, y, post ++ [x], by simp, hq⟩
          · exact ⟨items, x, [], rfl, hq⟩
      rw [split_last (fun pre y => (dropFit size cap pre).current = [] ∧ cap < size y),
        dropFit_snoc, ← ih]
      by_cases h : load size (dropFit size cap items).current + size x ≤ cap
      · rw [place_fits size cap h]
        constructor
        · exact Or.inl
        · rintro (hc | ⟨he, hx⟩)
          · exact hc
          · rw [he] at h; simp at h; omega
      · rw [place_rejects size cap (Nat.not_le.mp h)]
        simp only [List.mem_append, List.mem_singleton]
        refine or_congr_right ⟨fun he => ⟨he.symm, ?_⟩, fun he => he.1.symm⟩
        rw [← he] at h; simp at h; omega

/-- The newest bin that holds an item satisfying `p`, empty when none does. -/
def newest (p : β → Bool) (bins : List (List β)) : List β :=
  (bins.reverse.find? (·.any p)).getD []

theorem newest_snoc (p : β → Bool) (bins : List (List β)) (bin : List β) :
    newest p (bins ++ [bin]) = if bin.any p then bin else newest p bins := by
  unfold newest
  by_cases h : bin.any p <;> simp [h]

/-- The position of that bin. -/
def newestIdx (p : β → Bool) (bins : List (List β)) : Option Nat :=
  (bins.zipIdx.reverse.find? fun b => b.1.any p).map (·.2)

theorem newestIdx_snoc (p : β → Bool) (bins : List (List β)) (bin : List β) :
    newestIdx p (bins ++ [bin]) = if bin.any p then some bins.length else newestIdx p bins := by
  unfold newestIdx
  rw [List.zipIdx_append]
  by_cases h : bin.any p <;> simp [h]

theorem newestIdx_eq_some {p : β → Bool} {bins : List (List β)} {i : Nat}
    (h : newestIdx p bins = some i) : bins[i]? = some (newest p bins) ∧ (newest p bins).any p := by
  induction bins using List.reverseRecOn with
  | nil => cases h
  | append_singleton bins bin ih =>
      rw [newestIdx_snoc] at h
      rw [newest_snoc]
      split at h
      · rename_i hbin
        cases h
        simp [hbin]
      · rename_i hbin
        obtain ⟨hget, hany⟩ := ih h
        have hi : i < bins.length := (List.getElem?_eq_some_iff.mp hget).1
        rw [if_neg hbin, List.getElem?_append_left hi]
        exact ⟨hget, hany⟩

theorem newestIdx_eq_none {p : β → Bool} {bins : List (List β)} (h : newestIdx p bins = none) :
    ∀ x ∈ bins.flatten, ¬p x := by
  induction bins using List.reverseRecOn with
  | nil => simp
  | append_singleton bins bin ih =>
      rw [newestIdx_snoc] at h
      split at h
      · cases h
      · rename_i hbin
        intro x hx hp
        rw [List.flatten_append, List.mem_append] at hx
        rcases hx with hx | hx
        · exact ih h x hx hp
        · exact hbin (List.any_eq_true.mpr ⟨x, by simpa using hx, hp⟩)

/-- The last item satisfying `p` is the last one of the newest bin that holds any. -/
theorem find?_reverse_flatten (p : β → Bool) (bins : List (List β)) :
    bins.flatten.reverse.find? p = (newest p bins).reverse.find? p := by
  induction bins using List.reverseRecOn with
  | nil => rfl
  | append_singleton bins bin ih =>
      rw [newest_snoc, List.flatten_append, List.reverse_append, List.find?_append]
      simp only [List.flatten_cons, List.flatten_nil, List.append_nil]
      split
      · rename_i h
        obtain ⟨x, hx, hp⟩ := List.any_eq_true.mp h
        have found : (bin.reverse.find? p).isSome := by
          rw [List.find?_isSome]
          exact ⟨x, List.mem_reverse.mpr hx, hp⟩
        rw [Option.or_of_isSome found]
      · rename_i h
        have absent : bin.reverse.find? p = none := by
          rw [List.find?_eq_none]
          intro x hx hp
          exact h (List.any_eq_true.mpr ⟨x, List.mem_reverse.mp hx, hp⟩)
        rw [absent, Option.none_or, ih]

end Bins
