import Mathlib.Logic.Relation
import Mathlib.Tactic.Common
/-!
# Layers stacked on each other

Every layer holds values for some keys and may sit on another layer, its
`parent`. Reading a key from a layer gives the value of the first layer, going
down from it, that has one, and the default of the root when none has. Layers
may be shared: the parents form a forest, not a list.

`read_extend` is the rule for filling a layer in: storing in a layer the value
it would read anyway changes no read. `read_congr` is the frame rule: a read
depends only on the layers it passes.
-/

namespace Weenix.Lib.Layers

variable {κ π ρ : Type}

/-- Every layer sits on a root or on a layer with a smaller number. -/
def Grounded (parent : Nat → Option Nat) : Prop := ∀ o o', parent o = some o' → parent o' = none ∨ o' < o

/-- `y` is `o` or below it. -/
def Reaches (parent : Nat → Option Nat) : Nat → Nat → Prop :=
  Relation.ReflTransGen (fun a b => parent a = some b)

/-- Read `k` from layer `o`, going down at most `n` layers. -/
def readN (parent : Nat → Option Nat) (own : Nat → κ → Option π) (dflt : Nat → κ → π) : Nat → Nat → κ → π
  | 0, o, k => dflt o k
  | n + 1, o, k =>
    match own o k with
    | some x => x
    | none =>
      match parent o with
      | some o' => readN parent own dflt n o' k
      | none => dflt o k

/-- Read `k` from layer `o`. In a grounded forest `o + 2` layers suffice. -/
def read (parent : Nat → Option Nat) (own : Nat → κ → Option π) (dflt : Nat → κ → π) (o : Nat) (k : κ) : π :=
  readN parent own dflt (o + 2) o k

/-- The first value for `k` from layer `o` down, if any layer has one. -/
def find (parent : Nat → Option Nat) (own : Nat → κ → Option π) (o : Nat) (k : κ) : Option π :=
  read parent (fun o k => (own o k).map some) (fun _ _ => none) o k

section
variable {parent parent' : Nat → Option Nat} {own own' : Nat → κ → Option π} {dflt dflt' : Nat → κ → π}

/-- Induction up a grounded forest. -/
theorem Grounded.induct (hg : Grounded parent) {P : Nat → Prop}
    (h : ∀ o, (∀ o', parent o = some o' → P o') → P o) (o : Nat) : P o := by
  have hroot : ∀ r, parent r = none → P r := fun r hr => h r (fun o' ho' => by rw [hr] at ho'; cases ho')
  induction o using Nat.strongRecOn with
  | ind o ih =>
    refine h o (fun o' ho' => ?_)
    rcases hg o o' ho' with hr | hlt
    · exact hroot o' hr
    · exact ih o' hlt

theorem readN_root (n : Nat) {r : Nat} (hr : parent r = none) (k : κ) :
    readN parent own dflt (n + 1) r k = (own r k).getD (dflt r k) := by
  simp only [readN, hr]
  cases own r k <;> rfl

/-- More fuel than needed makes no difference. -/
theorem readN_stable (hg : Grounded parent) (k : κ) :
    ∀ (o n : Nat), o + 2 ≤ n → readN parent own dflt n o k = readN parent own dflt (o + 2) o k := by
  intro o
  induction o using Nat.strongRecOn with
  | ind o ih =>
    intro n hn
    obtain ⟨n, rfl⟩ : ∃ m, n = m + 1 := ⟨n - 1, by omega⟩
    simp only [readN]
    cases own o k with
    | some x => rfl
    | none =>
      cases hp : parent o with
      | none => rfl
      | some o' =>
        rcases hg o o' hp with hr | hlt
        · obtain ⟨n, rfl⟩ : ∃ m, n = m + 1 := ⟨n - 1, by omega⟩
          have e1 : readN parent own dflt (n + 1) o' k = _ := readN_root n hr k
          have e2 : readN parent own dflt (o + 1) o' k = _ := readN_root o hr k
          simp only [readN] at e1 e2 ⊢
          rw [e1, e2]
        · have e1 := ih o' hlt n (by omega)
          have e2 := ih o' hlt (o + 1) (by omega)
          simp only [readN] at e1 e2 ⊢
          rw [e1, ← e2]

/-- Reading a layer: its own value, else its parent's, else the default. -/
theorem read_eq (hg : Grounded parent) (o : Nat) (k : κ) :
    read parent own dflt o k =
      match own o k with
      | some x => x
      | none =>
        match parent o with
        | some o' => read parent own dflt o' k
        | none => dflt o k := by
  unfold read
  rw [readN]
  cases own o k with
  | some x => rfl
  | none =>
    cases hp : parent o with
    | none => rfl
    | some o' =>
      simp only
      rcases hg o o' hp with hr | hlt
      · rw [readN_root _ hr, readN_root _ hr]
      · exact readN_stable hg k o' (o + 1) (by omega)

theorem read_own (hg : Grounded parent) {o : Nat} {k : κ} {x : π} (h : own o k = some x) :
    read parent own dflt o k = x := by
  rw [read_eq hg, h]

theorem read_parent (hg : Grounded parent) {o o' : Nat} {k : κ} (h : own o k = none) (hp : parent o = some o') :
    read parent own dflt o k = read parent own dflt o' k := by
  rw [read_eq hg, h, hp]

theorem read_root (hg : Grounded parent) {r : Nat} {k : κ} (h : own r k = none) (hp : parent r = none) :
    read parent own dflt r k = dflt r k := by
  rw [read_eq hg, h, hp]

/-- A read depends only on the layers it passes. -/
theorem read_congr (hg : Grounded parent) (hg' : Grounded parent') {k : κ} (o : Nat)
    (h : ∀ y, Reaches parent o y → parent' y = parent y ∧ own' y k = own y k ∧ dflt' y k = dflt y k) :
    read parent' own' dflt' o k = read parent own dflt o k := by
  induction o using hg.induct with
  | _ o ih =>
    obtain ⟨hp, ho, hd⟩ := h o .refl
    rw [read_eq hg, read_eq hg', ho, hp, hd]
    cases own o k with
    | some x => rfl
    | none =>
      cases hpo : parent o with
      | none => rfl
      | some o' => exact ih o' hpo (fun y hy => h y (.head hpo hy))

/-- Storing in a layer the value it reads anyway changes no read. -/
theorem read_extend (hg : Grounded parent) {o : Nat} {k : κ}
    (h : ∀ y, Reaches parent o y →
      own' y k = own y k ∨ (own y k = none ∧ own' y k = some (read parent own dflt y k))) :
    read parent own' dflt o k = read parent own dflt o k := by
  induction o using hg.induct with
  | _ o ih =>
    rcases h o .refl with he | ⟨-, he⟩
    · rw [read_eq hg, read_eq hg, he]
      cases own o k with
      | some x => rfl
      | none =>
        cases hpo : parent o with
        | none => rfl
        | some o' => exact ih o' hpo fun y hy => h y (.head hpo hy)
    · exact read_own hg he

/-- Layers without a value are passed over. -/
theorem read_skip (hg : Grounded parent) {o b : Nat} {k : κ} (hb : Reaches parent o b)
    (h : ∀ y, Reaches parent o y → y ≠ b → own y k = none) : read parent own dflt o k = read parent own dflt b k := by
  induction hb using Relation.ReflTransGen.head_induction_on with
  | refl => rfl
  | @head x y hxy hy ih =>
    by_cases e : x = b
    · rw [e]
    · rw [read_parent hg (h x .refl e) hxy]
      exact ih fun z hz => h z (.head hxy hz)

/-- Reading `k` from layer `o` gets to layer `x`: no layer before `x` has a value. -/
def Sees (parent : Nat → Option Nat) (own : Nat → κ → Option π) (k : κ) : Nat → Nat → Prop :=
  Relation.ReflTransGen fun y z => own y k = none ∧ parent y = some z

/-- A layer with a value sees only itself. -/
theorem sees_own {o x : Nat} {k : κ} {v : π} (ho : own o k = some v) (h : Sees parent own k o x) : x = o := by
  rcases Relation.ReflTransGen.cases_head h with rfl | ⟨y, ⟨hy, -⟩, -⟩
  · rfl
  · rw [ho] at hy
    cases hy

/-- The more values there are, the less is seen. -/
theorem sees_mono {own' : Nat → κ → Option π} {o x : Nat} {k : κ} (h : ∀ y, own' y k = none → own y k = none)
    (hx : Sees parent own' k o x) : Sees parent own k o x := by
  induction hx with
  | refl => exact .refl
  | tail _ hz ih => exact .tail ih ⟨h _ hz.1, hz.2⟩

/-- What is seen is passed. -/
theorem sees_reaches {o x : Nat} {k : κ} (h : Sees parent own k o x) : Reaches parent o x := by
  induction h with
  | refl => exact .refl
  | tail _ hz ih => exact .tail ih hz.2

theorem read_seen (hg : Grounded parent) {o x : Nat} {k : κ} (h : Sees parent own k o x) :
    read parent own dflt o k = read parent own dflt x k := by
  induction h using Relation.ReflTransGen.head_induction_on with
  | refl => rfl
  | head hy _ ih => rw [read_parent hg hy.1 hy.2, ih]

/-- A change in a layer that is not seen changes no read. -/
theorem read_unseen (hg : Grounded parent) {own' : Nat → κ → Option π} {o x : Nat} {k : κ}
    (h : ∀ y, y ≠ x → own' y k = own y k) (hx : ¬ Sees parent own k o x) :
    read parent own' dflt o k = read parent own dflt o k := by
  induction o using hg.induct with
  | _ o ih =>
    have hne : o ≠ x := by
      rintro rfl
      exact hx .refl
    rw [read_eq hg, read_eq hg, h o hne]
    cases ho : own o k with
    | some v => rfl
    | none =>
      cases hp : parent o with
      | none => rfl
      | some o' =>
        apply ih o' hp
        intro hs
        exact hx (.head ⟨ho, hp⟩ hs)

/-- Reads through a map of the stored values. -/
theorem read_map (hg : Grounded parent) {own : Nat → κ → Option ρ} (g : ρ → π) {o : Nat} {k : κ} {x : ρ}
    (h : find parent own o k = some x) : read parent (fun o k => (own o k).map g) dflt o k = g x := by
  unfold find at h
  induction o using hg.induct with
  | _ o ih =>
    rw [read_eq hg] at h ⊢
    cases ho : own o k with
    | some y => simp only [ho, Option.map_some, Option.some.injEq] at h ⊢; rw [h]
    | none =>
      simp only [ho, Option.map_none] at h ⊢
      cases hp : parent o with
      | none => simp [hp] at h
      | some o' => simp only [hp] at h ⊢; exact ih o' hp h

end

/-! ## Finding the layer -/

section
variable {parent : Nat → Option Nat} {own : Nat → κ → Option π}

theorem find_own (hg : Grounded parent) {o : Nat} {k : κ} {x : π} (h : own o k = some x) :
    find parent own o k = some x := by
  unfold find
  exact read_own hg (by rw [h]; rfl)

theorem find_parent (hg : Grounded parent) {o o' : Nat} {k : κ} (h : own o k = none) (hp : parent o = some o') :
    find parent own o k = find parent own o' k :=
  read_parent hg (by rw [h]; rfl) hp

theorem find_root (hg : Grounded parent) {r : Nat} {k : κ} (hp : parent r = none) :
    find parent own r k = own r k := by
  unfold find
  rw [read_eq hg, hp]
  cases own r k <;> rfl

theorem find_skip (hg : Grounded parent) {o b : Nat} {k : κ} (hb : Reaches parent o b)
    (h : ∀ y, Reaches parent o y → y ≠ b → own y k = none) : find parent own o k = find parent own b k :=
  read_skip hg hb fun y hy hne => by rw [h y hy hne]; rfl

/-- What is found lies in a layer below. -/
theorem find_reaches (hg : Grounded parent) {o : Nat} {k : κ} {x : π} (h : find parent own o k = some x) :
    ∃ y, Reaches parent o y ∧ own y k = some x := by
  induction o using hg.induct with
  | _ o ih =>
    cases ho : own o k with
    | some z =>
      rw [find_own hg ho] at h
      exact ⟨o, .refl, by rw [ho, h]⟩
    | none =>
      cases hp : parent o with
      | none => rw [find_root hg hp, ho] at h; cases h
      | some o' =>
        rw [find_parent hg ho hp] at h
        obtain ⟨y, hy, hx⟩ := ih o' hp h
        exact ⟨y, .head hp hy, hx⟩

/-- What is reached depends only on the parents on the way. -/
theorem reaches_congr {parent' : Nat → Option Nat} {o x : Nat} (h : ∀ y, Reaches parent o y → parent' y = parent y)
    (hx : Reaches parent o x) : Reaches parent' o x := by
  induction hx with
  | refl => exact .refl
  | tail hy hz ih => exact .tail ih ((h _ hy).trans hz)

/-- The layer found stays the one found while the layers above it stay as they
are. A root that does not hold what is found may change. -/
theorem find_keep {parent' : Nat → Option Nat} {own' : Nat → κ → Option π} (hg : Grounded parent)
    (hg' : Grounded parent') {o : Nat} {k : κ} {x : π}
    (h : ∀ y, Reaches parent o y → parent' y = parent y ∧
      (own' y k = own y k ∨ (parent y = none ∧ own y k ≠ some x)))
    (hx : find parent own o k = some x) : find parent' own' o k = some x := by
  induction o using hg.induct with
  | _ o ih =>
    obtain ⟨hp, ho⟩ := h o .refl
    rcases ho with ho | ⟨hroot, hne⟩
    · cases hown : own o k with
      | some z =>
        rw [find_own hg hown] at hx
        rw [hx] at hown
        exact find_own hg' (ho.trans hown)
      | none =>
        cases hpo : parent o with
        | none => rw [find_root hg hpo, hown] at hx; cases hx
        | some o' =>
          rw [find_parent hg hown hpo] at hx
          rw [find_parent hg' (ho.trans hown) (hp.trans hpo)]
          exact ih o' hpo (fun y hy => h y (.head hpo hy)) hx
    · rw [find_root hg hroot] at hx
      exact absurd hx hne

/-- Nothing sits on a leaf, so only the leaf itself reaches it. -/
theorem reaches_leaf {o x : Nat} (hleaf : ∀ y, parent y ≠ some o) (h : Reaches parent x o) : x = o := by
  rcases Relation.ReflTransGen.cases_tail h with rfl | ⟨y, -, hy⟩
  · rfl
  · exact absurd hy (hleaf y)

/-- A root reaches only itself. -/
theorem reaches_root {r x : Nat} (hr : parent r = none) (h : Reaches parent r x) : x = r := by
  rcases Relation.ReflTransGen.cases_head h with rfl | ⟨y, hy, -⟩
  · rfl
  · rw [hr] at hy; cases hy

end

end Weenix.Lib.Layers
