import Weenix.Vfs.VnodeRuns
/-!
# Who waits for a vnode, and who uses it

What a step leaves alone (`step_stays`): while a vnode is not freed it keeps its
number and its place, and the threads asleep on it sleep. So `vget` gives out one
vnode for a number, and a thread that met a vnode while it was read in sleeps
until that vnode is freed.
-/

namespace Weenix.Vnodes
open Lib

variable {s s' : Table} {e : Event} {w : Outcome} {t vn fs vno n : Nat} {v v' : Vnode} {pl : Place} {alloc : Option Nat}

/-- What stays as it is while the vnode at `vn` is not freed: its number, and the threads asleep on it. -/
def Stays (s s' : Table) (vn : Nat) : Prop :=
  (∀ v, s.vnodes vn = some v → ∃ v', s'.vnodes vn = some v' ∧ v'.id = v.id) ∧
    ∀ u fs vno, s.place u = .asleep fs vno vn → s'.place u = .asleep fs vno vn

namespace Stays

theorem refl (s : Table) (vn : Nat) : Stays s s vn := ⟨fun v hv => ⟨v, hv, rfl⟩, fun _ _ _ hu => hu⟩

theorem trans {s₁ s₂ s₃ : Table} (h : Stays s₁ s₂ vn) (h' : Stays s₂ s₃ vn) : Stays s₁ s₃ vn := by
  refine ⟨fun v hv => ?_, fun u fs vno hu => h'.2 u fs vno (h.2 u fs vno hu)⟩
  obtain ⟨v₂, hv₂, hid₂⟩ := h.1 v hv
  obtain ⟨v₃, hv₃, hid₃⟩ := h'.1 v₂ hv₂
  exact ⟨v₃, hv₃, hid₃.trans hid₂⟩

/-- Another vnode, or this one with its number. -/
theorem update (hid : ∀ x, s.vnodes n = some x → v.id = x.id) : Stays s (s.setVnode n v) vn := by
  refine ⟨fun x hx => ?_, fun _ _ _ hu => hu⟩
  by_cases e : vn = n
  · rw [e] at hx ⊢
    exact ⟨v, Function.update_self .., hid x hx⟩
  · exact ⟨x, (Function.update_of_ne e ..).trans hx, rfl⟩

theorem setVnode (hv : s.vnodes n = some v) (hid : v'.id = v.id) : Stays s (s.setVnode n v') vn := by
  refine .update fun x hx => ?_
  rw [hv] at hx
  cases hx
  exact hid

/-- A thread that does not sleep on the vnode goes on. -/
theorem goes (h : Stays s s' vn) (ht : ∀ fs vno, s.place t ≠ .asleep fs vno vn) : Stays s (s'.goes t pl) vn := by
  refine ⟨h.1, fun u fs vno hu => ?_⟩
  have e : u ≠ t := by
    rintro rfl
    exact ht fs vno hu
  exact (Function.update_of_ne e ..).trans (h.2 u fs vno hu)

end Stays

theorem vref_stays (h : vref s n = some s') (vn : Nat) : Stays s s' vn := by
  simp only [vref, KASSERT, Option.bind_eq_bind, Option.bind_eq_some_iff] at h
  obtain ⟨v, hv, _, -, hs⟩ := h
  cases hs
  exact .setVnode hv rfl

theorem find_stays (h : find s t fs vno alloc = some (s', w)) (hnew : ∀ n, alloc = some n → s.vnodes n = none)
    (ht : ∀ fs vno, s.place t ≠ .asleep fs vno vn) : Stays s s' vn := by
  unfold find at h
  split at h
  next n hn =>
    obtain ⟨v, hv, h⟩ := Option.bind_eq_some_iff.1 h
    split at h
    next =>
      cases h
      exact .goes (.setVnode hv rfl) ht
    next =>
      obtain ⟨s₁, hs₁, h⟩ := Option.bind_eq_some_iff.1 h
      cases h
      exact .goes (vref_stays hs₁ vn) ht
  next =>
    split at h <;> cases h
    next => exact .goes (.refl s vn) ht
    next n =>
      have hins : Stays s (s.insert n { vn_fs := fs, vn_vno := vno }) vn :=
        Stays.update fun x hx => by rw [hnew n rfl] at hx; cases hx
      exact .goes hins ht

theorem freePages_id {pfs : List Pframe} (h : freePages pfs v = some v') : v'.id = v.id := by
  induction pfs generalizing v with
  | nil =>
    cases h
    rfl
  | cons pf pfs ih =>
    unfold freePages at h
    split at h
    next =>
      cases h
      rfl
    next =>
      simp only [Option.bind_eq_bind, Option.bind_eq_some_iff] at h
      obtain ⟨_, -, _, -, _, -, h⟩ := h
      exact (ih h).trans rfl

theorem drop_stays (h : drop s t n v' = some s') (hv : s.vnodes n = some v) (hid : v'.id = v.id)
    (ht : ∀ fs vno, s.place t ≠ .asleep fs vno vn) : Stays s s' vn := by
  simp only [drop] at h
  split at h
  next =>
    cases h
    exact .goes (.setVnode hv hid) ht
  next =>
    obtain ⟨_, -, h⟩ := Option.bind_eq_some_iff.1 h
    cases h
    exact .goes (.setVnode hv hid) ht

theorem unload_stays {b : Bool} (h : unload s t n v' = some (s', b)) (hv : s.vnodes n = some v) (hid : v'.id = v.id)
    (ht : ∀ fs vno, s.place t ≠ .asleep fs vno vn) : Stays s s' vn := by
  obtain ⟨x, hfree, h⟩ := Option.bind_eq_some_iff.1 h
  have hx : x.id = v.id := (freePages_id hfree).trans hid
  split at h
  next =>
    cases h
    exact .goes (.setVnode hv hx) ht
  next =>
    simp only [Option.bind_eq_bind, Option.bind_eq_some_iff] at h
    obtain ⟨_, -, s₁, hdrop, h⟩ := h
    cases h
    exact drop_stays hdrop hv hx ht

theorem vput_stays {linked b : Bool} (h : vput s t n linked = some (s', b))
    (ht : ∀ fs vno, s.place t ≠ .asleep fs vno vn) : Stays s s' vn := by
  simp only [vput, Option.bind_eq_bind, Option.bind_eq_some_iff] at h
  obtain ⟨v, hv, _, -, _, -, h⟩ := h
  split at h
  next => exact unload_stays h hv rfl ht
  next =>
    obtain ⟨s₁, hdrop, h⟩ := Option.bind_eq_some_iff.1 h
    cases h
    exact drop_stays hdrop hv rfl ht

/-- A vnode that goes wakes those who sleep on it, and nobody else. -/
theorem delete_done_stays (h : s.Ok) (hdel : delete_done s t n = some s') (hne : vn ≠ n)
    (ht : ∀ fs vno, s.place t ≠ .asleep fs vno vn) : Stays s s' vn := by
  obtain ⟨v, hv, hs⟩ := Option.bind_eq_some_iff.1 hdel
  cases hs
  have hwake : Stays s ((s.wake v.vn_waitq).remove n) vn := by
    refine ⟨fun x hx => ⟨x, (Function.update_of_ne hne ..).trans hx, rfl⟩, fun u fs vno hu => ?_⟩
    have hq : u ∉ v.vn_waitq := by
      rw [(h.fine n v hv).waits]
      rintro ⟨fs', vno', hu'⟩
      rw [hu] at hu'
      cases hu'
      exact hne rfl
    exact (if_neg hq).trans hu
  exact .goes hwake ht

/-- What a step leaves alone. -/
theorem step_stays (h : s.Ok) (hp : Proper s e) (hst : step s e = some (s', w)) (hw : w ≠ .freed vn) : Stays s s' vn := by
  cases e with
  | vget t fs vno alloc => exact find_stays hst hp.2.1 (by simp [hp.1])
  | again t alloc =>
    obtain ⟨fs, vno, ht, ha⟩ := hp
    simp only [step, ht] at hst
    exact find_stays hst ha.1 (by simp [ht])
  | read_vnode t =>
    obtain ⟨n, ht⟩ := hp
    simp only [step, ht, read_done, Option.bind_eq_bind, Option.bind_eq_some_iff] at hst
    obtain ⟨s₁, ⟨v, hv, hs₁⟩, h⟩ := hst
    cases h
    cases hs₁
    exact .goes (.setVnode hv rfl) (by simp [ht])
  | vref n =>
    obtain ⟨s₁, hs₁, h⟩ := Option.bind_eq_some_iff.1 hst
    cases h
    exact vref_stays hs₁ vn
  | vput t n linked =>
    obtain ⟨⟨s₁, b⟩, hput, h⟩ := Option.bind_eq_some_iff.1 hst
    cases h
    exact vput_stays hput (by simp [hp.1])
  | unload t =>
    obtain ⟨n, ht⟩ := hp
    simp only [step, ht, Option.bind_eq_bind, Option.bind_eq_some_iff] at hst
    obtain ⟨v, hv, ⟨s₁, b⟩, hunload, h⟩ := hst
    cases h
    exact unload_stays hunload hv rfl (by simp [ht])
  | delete_vnode t =>
    obtain ⟨n, ht⟩ := hp
    simp only [step, ht, Option.bind_eq_bind, Option.bind_eq_some_iff] at hst
    obtain ⟨s₁, hdel, hs⟩ := hst
    cases hs
    refine delete_done_stays h hdel ?_ (by simp [ht])
    rintro rfl
    exact hw rfl
  | pframe_alloc n k =>
    simp only [step, Vnodes.pframe_alloc, Option.bind_eq_bind, Option.bind_eq_some_iff] at hst
    obtain ⟨s₁, ⟨s₂, hs₂, v, hv, hs₁⟩, h⟩ := hst
    cases h
    cases hs₁
    exact (vref_stays hs₂ vn).trans (.setVnode hv rfl)
  | pframe_free t n k linked =>
    simp only [step, pframe_release, Option.bind_eq_bind, Option.bind_eq_some_iff] at hst
    obtain ⟨s₁, ⟨v, hv, pf, -, _, -, hs₁⟩, ⟨s₂, b⟩, hput, h⟩ := hst
    cases h
    cases hs₁
    have ht (fs vno : Nat) : s.place t ≠ .asleep fs vno vn := by simp [hp.1]
    refine .trans (.setVnode hv ?_) (vput_stays hput ht)
    rfl
  | pframe_set_busy n k b =>
    simp only [step, Vnodes.pframe_set_busy, Option.bind_eq_bind, Option.bind_eq_some_iff] at hst
    obtain ⟨s₁, ⟨v, hv, hs₁⟩, h⟩ := hst
    cases h
    cases hs₁
    exact .setVnode hv rfl

theorem run_stays {tr} (h : s.Ok) (h' : Run step Proper s s' tr) : (∀ e, (e, .freed vn) ∉ tr) → s'.Ok ∧ Stays s s' vn := by
  induction h' with
  | nil => exact fun _ => ⟨h, .refl s vn⟩
  | @snoc s₁ s₂ tr e w _ hp hst ih =>
    intro hno
    obtain ⟨hok, hstays⟩ := ih fun e he => hno e (List.mem_append_left _ he)
    obtain ⟨s₃, w₃, hst₃, hok₃, -⟩ := step_spec hok hp
    rw [hst] at hst₃
    cases hst₃
    refine ⟨hok₃, hstays.trans (step_stays hok hp hst ?_)⟩
    rintro rfl
    exact hno e (by simp)

/-- `vget` finds the vnode that has the number, if it is not busy. -/
theorem find_got (h : s.Ok) (hv : s.vnodes vn = some v) (hb : v.vn_busy = false) :
    ∃ s', find s t v.vn_fs v.vn_vno alloc = some (s', .got vn) := by
  obtain ⟨n, hn⟩ : ∃ n, s.vnode_inuse_list.find? (s.is v.vn_fs v.vn_vno) = some n := by
    rw [← Option.isSome_iff_exists, List.find?_isSome]
    exact ⟨vn, (h.listed vn).2 (by simp [hv]), by simp [Table.is, hv]⟩
  obtain ⟨x, hx, hid⟩ : ∃ x, s.vnodes n = some x ∧ x.id = v.id := by
    have his := List.find?_some hn
    simpa [Table.is, Option.any_eq_true, Vnode.id] using his
  obtain rfl : n = vn := h.unique n vn x v hx hv hid
  have hc : 0 < v.vn_refcount := by
    rw [Nat.pos_iff_ne_zero, Ne, ← (h.fine n v hv).busy, hb]
    exact Bool.false_ne_true
  simp [find, hn, hv, hb, vref, KASSERT, hc]

/-- What `vfs_is_in_use` finds out about one vnode; `isRoot` is `fs->fs_root == vn`. -/
def in_use (fs : Nat) (isRoot : Bool) (v : Vnode) : Option Bool := do
  KASSERT (v.vn_nrespages ≤ v.vn_refcount)
  if fs ≠ v.vn_fs then some false
  else do
    KASSERT (isRoot = true → 1 ≤ v.refs)
    some (decide (isRoot = true ∧ 1 < v.refs ∨ isRoot = false ∧ v.refs ≠ 0))

def vfs_is_in_use.loop (s : Table) (fs root : Nat) : List Nat → Bool → Option Bool
  | [], ret => some ret
  | vn :: vns, ret => do
    let v ← s.vnodes vn
    let b ← in_use fs (vn = root) v
    vfs_is_in_use.loop s fs root vns (ret || b)

/-- `true` is `-EBUSY`. -/
def vfs_is_in_use (s : Table) (fs root : Nat) : Option Bool :=
  vfs_is_in_use.loop s fs root s.vnode_inuse_list false

/-- Someone other than the mount has a reference to the vnode, which is of `fs`. -/
def Table.UsedIn (s : Table) (fs root vn : Nat) : Prop :=
  ∃ v, s.vnodes vn = some v ∧ v.vn_fs = fs ∧ (if vn = root then 1 else 0) < v.refs

theorem in_use_eq (fs vn root : Nat) (h : v.vn_nrespages ≤ v.vn_refcount) (hroot : vn = root → v.vn_fs = fs → 1 ≤ v.refs) :
    in_use fs (vn = root) v = some (decide (v.vn_fs = fs ∧ (if vn = root then 1 else 0) < v.refs)) := by
  simp only [in_use, KASSERT, if_pos h, Option.bind_eq_bind, Option.bind_some]
  by_cases hfs : v.vn_fs = fs
  · rw [if_neg (by simp [hfs])]
    by_cases e : vn = root
    · simp [e, hfs, hroot e hfs]
    · simp [e, hfs, Nat.pos_iff_ne_zero]
  · rw [if_pos (Ne.symm hfs)]
    simp [hfs]

theorem loop_eq (fs : Nat) {root : Nat} {vns : List Nat} (h : s.Ok) (hsub : ∀ vn ∈ vns, vn ∈ s.vnode_inuse_list)
    (hroot : 0 < s.refs root) (ret : Bool) :
    ∃ b, vfs_is_in_use.loop s fs root vns ret = some b ∧ (b = true ↔ ret = true ∨ ∃ vn ∈ vns, s.UsedIn fs root vn) := by
  induction vns generalizing ret with
  | nil => exact ⟨ret, rfl, by simp⟩
  | cons vn vns ih =>
    obtain ⟨v, hv⟩ := Option.isSome_iff_exists.1 ((h.listed vn).1 (hsub vn (by simp)))
    have huse := in_use_eq fs vn root (h.fine vn v hv).pages fun e _ => by
      rwa [← e, Table.refs_of hv] at hroot
    obtain ⟨b, hb, hiff⟩ := ih (fun x hx => hsub x (List.mem_cons_of_mem _ hx))
      (ret || decide (v.vn_fs = fs ∧ (if vn = root then 1 else 0) < v.refs))
    refine ⟨b, by simp only [vfs_is_in_use.loop, hv, huse, hb, Option.bind_eq_bind, Option.bind_some], hiff.trans ?_⟩
    have hused : s.UsedIn fs root vn ↔ v.vn_fs = fs ∧ (if vn = root then 1 else 0) < v.refs := by
      simp [Table.UsedIn, hv]
    simp only [Bool.or_eq_true, decide_eq_true_eq, List.mem_cons, exists_eq_or_imp, hused, or_assoc]

end Weenix.Vnodes
