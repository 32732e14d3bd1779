import Weenix.Lib.Runs
import Mathlib.Logic.Function.Basic
/-!
# Handles and descriptions

Owners have tables of handles, and a handle that is in use names a description.
Descriptions are numbered as they come up and are never used again; there is
nothing to count and nothing to free.

A system may keep its descriptions in cells that it reuses. `Shows` says that it
does this unseen: with the right name for each cell, its tables are the tables of
the model.
-/

namespace Weenix.Lib

structure Handles (δ : Type) where
  tab : Nat → Nat → Option Nat
  desc : Nat → δ
  next : Nat

variable {δ : Type}

namespace Handles

def empty (v : δ) : Handles δ := ⟨fun _ _ => none, fun _ => v, 0⟩

variable (a : Handles δ)

def set (p fd : Nat) (x : Option Nat) : Handles δ :=
  { a with tab := Function.update a.tab p (Function.update (a.tab p) fd x) }

/-- The description `d` becomes `v`. -/
def put (d : Nat) (v : δ) : Handles δ := { a with desc := Function.update a.desc d v }

/-- A new description behind a handle. -/
def opened (p fd : Nat) (v : δ) : Handles δ := { (a.set p fd (some a.next)).put a.next v with next := a.next + 1 }

/-- The owner `q` gets the table `row`. -/
def setRow (q : Nat) (row : Nat → Option Nat) : Handles δ := { a with tab := Function.update a.tab q row }

end Handles

/-- `slot` and `cell` are the tables and the cells of a system, and `m` names the cells in use. -/
structure Shows (slot : Nat → Nat → Option Nat) (cell : Nat → Option δ) (m : Nat → Nat) (a : Handles δ) : Prop where
  tab : ∀ p fd, a.tab p fd = (slot p fd).map m
  inj : ∀ p fd q fd' f g, slot p fd = some f → slot q fd' = some g → m f = m g → f = g
  desc : ∀ p fd f, slot p fd = some f → cell f = some (a.desc (m f))
  old : ∀ p fd f, slot p fd = some f → m f < a.next

namespace Shows

variable {slot slot' : Nat → Nat → Option Nat} {cell cell' : Nat → Option δ} {m : Nat → Nat} {a : Handles δ} {p fd f : Nat} {v : δ}

/-- Cells that are not in use do not matter. -/
theorem congr (h : Shows slot cell m a) (hslot : slot' = slot) (hcell : ∀ p fd f, slot p fd = some f → cell' f = cell f) :
    Shows slot' cell' m a := by
  subst hslot
  exact ⟨h.tab, h.inj, fun p fd f hf => (hcell p fd f hf).trans (h.desc p fd f hf), h.old⟩

/-- A cell that is in use changes. -/
theorem put (h : Shows slot cell m a) (hf : slot p fd = some f) (hv : cell' f = some v) (hcell : ∀ g, g ≠ f → cell' g = cell g) :
    Shows slot cell' m (a.put (m f) v) := by
  refine ⟨h.tab, h.inj, fun q fd' g hg => ?_, h.old⟩
  by_cases e : g = f
  · rw [e, hv]
    simp [Handles.put]
  · have hne : m g ≠ m f := fun hm => e (h.inj q fd' p fd g f hg hf hm)
    rw [hcell g e, h.desc q fd' g hg]
    simp [Handles.put, hne]

/-- Tables change to what is in use already. -/
theorem slots {tab' : Nat → Nat → Option Nat} (h : Shows slot cell m a) (htab : ∀ p fd, tab' p fd = (slot' p fd).map m)
    (hused : ∀ p fd f, slot' p fd = some f → ∃ q fd', slot q fd' = some f) : Shows slot' cell m { a with tab := tab' } := by
  refine ⟨htab, fun p fd q fd' f g hf hg => ?_, fun p fd f hf => ?_, fun p fd f hf => ?_⟩
  · obtain ⟨p₁, fd₁, hf₁⟩ := hused p fd f hf
    obtain ⟨q₁, fd₂, hg₁⟩ := hused q fd' g hg
    exact h.inj p₁ fd₁ q₁ fd₂ f g hf₁ hg₁
  · obtain ⟨p₁, fd₁, hf₁⟩ := hused p fd f hf
    exact h.desc p₁ fd₁ f hf₁
  · obtain ⟨p₁, fd₁, hf₁⟩ := hused p fd f hf
    exact h.old p₁ fd₁ f hf₁

/-- A cell that was not in use is put behind a handle, under a new name. -/
theorem opened (h : Shows slot cell m a) (hfree : ∀ q fd', slot q fd' ≠ some f) (hv : cell' f = some v)
    (hcell : ∀ g, g ≠ f → cell' g = cell g)
    (hslot : slot' = Function.update slot p (Function.update (slot p) fd (some f))) :
    Shows slot' cell' (Function.update m f a.next) (a.opened p fd v) := by
  -- the other cells in use have their old names, which are not new
  have hother {q fd' g : Nat} (hg : slot' q fd' = some g) : g = f ∧ q = p ∧ fd' = fd ∨ g ≠ f ∧ slot q fd' = some g := by
    rw [hslot, Function.update_apply] at hg
    split at hg
    next e =>
      rw [Function.update_apply] at hg
      split at hg
      next e' =>
        cases hg
        exact .inl ⟨rfl, e, e'⟩
      next =>
        rw [← e] at hg
        refine .inr ⟨?_, hg⟩
        rintro rfl
        exact hfree _ _ hg
    next =>
      refine .inr ⟨?_, hg⟩
      rintro rfl
      exact hfree _ _ hg
  have hname {q fd' : Nat} : (slot q fd').map (Function.update m f a.next) = (slot q fd').map m := by
    refine Option.map_congr fun g hg => Function.update_of_ne ?_ ..
    rintro rfl
    exact hfree q fd' hg
  refine ⟨fun q fd' => ?_, fun q fd₁ r fd₂ g g' hg hg' hm => ?_, fun q fd' g hg => ?_, fun q fd' g hg => ?_⟩
  · simp only [Handles.opened, Handles.set, Handles.put, hslot, Function.update_apply]
    by_cases e : q = p
    · rw [if_pos e, if_pos e, Function.update_apply, Function.update_apply]
      split
      next => simp
      next => rw [h.tab, hname]
    · rw [if_neg e, if_neg e, h.tab, hname]
  · rcases hother hg with ⟨rfl, -⟩ | ⟨hne, hg⟩ <;> rcases hother hg' with ⟨rfl, -⟩ | ⟨hne', hg'⟩
    · rfl
    · rw [Function.update_self, Function.update_of_ne hne'] at hm
      exact absurd hm.symm (Nat.ne_of_lt (h.old _ _ _ hg'))
    · rw [Function.update_self, Function.update_of_ne hne] at hm
      exact absurd hm (Nat.ne_of_lt (h.old _ _ _ hg))
    · rw [Function.update_of_ne hne, Function.update_of_ne hne'] at hm
      exact h.inj _ _ _ _ _ _ hg hg' hm
  · simp only [Handles.opened, Handles.put]
    rcases hother hg with ⟨rfl, -⟩ | ⟨hne, hg⟩
    · rw [hv, Function.update_self, Function.update_self]
    · rw [Function.update_of_ne hne, Function.update_of_ne (Nat.ne_of_lt (h.old _ _ _ hg)), hcell g hne]
      exact h.desc _ _ _ hg
  · simp only [Handles.opened]
    rcases hother hg with ⟨rfl, -⟩ | ⟨hne, hg⟩
    · rw [Function.update_self]
      exact Nat.lt_succ_self _
    · rw [Function.update_of_ne hne]
      exact Nat.lt_succ_of_lt (h.old _ _ _ hg)

end Shows

/-! ## Simulation -/

/-- The traces of a system whose steps are relations. -/
inductive Follows {α ε ω : Type} (next : α → ε → ω → α → Prop) (a₀ : α) : α → List (ε × ω) → Prop
  | nil : Follows next a₀ a₀ []
  | snoc {a a' tr e w} : Follows next a₀ a tr → next a e w a' → Follows next a₀ a' (tr ++ [(e, w)])

/-- When each step has a match, and the states match again after it, every trace is one of the other system. -/
theorem Run.simulates {σ α ε ω : Type} {step : σ → ε → Option (σ × ω)} {ok : σ → ε → Prop} {s₀ s : σ} {a₀ : α}
    {tr : List (ε × ω)} (R : σ → α → Prop) (next : α → ε → ω → α → Prop) (h0 : R s₀ a₀)
    (hs : ∀ s a e s' w, R s a → ok s e → step s e = some (s', w) → ∃ a', next a e w a' ∧ R s' a')
    (h : Run step ok s₀ s tr) : ∃ a, Follows next a₀ a tr ∧ R s a := by
  induction h with
  | nil => exact ⟨a₀, .nil, h0⟩
  | snoc _ hok hst ih =>
    obtain ⟨a, ha, hR⟩ := ih
    obtain ⟨a', hn, hR'⟩ := hs _ a _ _ _ hR hok hst
    exact ⟨a', ha.snoc hn, hR'⟩

end Weenix.Lib
