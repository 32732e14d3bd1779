import Weenix.Vm.Refs
/-!
# Pages that were not filled

`pframe_get` with a record of the calls of `fillpage`, from which follows where
the contents of each frame come from (`Origin`). `pframe_get` leaves a frame it
could not fill among the resident ones, and `shadow_fillpage` copies from a
frame that could not be filled. `get_filled_iff` says which gets are not hit.
-/

namespace Weenix.Vm

open Lib

variable (E : Env)

/-! ## Recording the fills -/

/-- A call of a `fillpage` operation: a page of zeros, a page read from a file, or a copy of the frame `np`. -/
inductive Fill
  | made (pf : Pframe)
  | read (pf : Pframe) (ok : Bool)
  | copied (pf np : Pframe)

/-- `fillBottom`, with its fill. -/
def fillBottom_log (s : State) (o : Nat) (pf : Pframe) : Option (State × Bool × List Fill) := do
  let ob ← s.objs o
  match ob.mmo_ops with
  | .anon => do
    let (s, ok) ← anon_fillpage s pf
    some (s, ok, [.made pf])
  | .vnode vn => do
    let (s, ok) ← vreadpage E s vn pf
    some (s, ok, [.read pf ok])
  | .shadow => none

/-- `pframe_get_by`, with the fills. -/
def get_log_by (fill : State → Nat → Pframe → Option (State × Bool × List Fill)) (s : State) (o pn : Nat) :
    Option (State × (Pframe × Bool) × List Fill) :=
  match pframe_get_resident s o pn with
  | (s, some pf) => if s.pf_busy pf.pf_addr then none else some (s, (pf, true), [])
  | (s, none) => do
    let (s, pf) ← pframe_alloc E s o pn
    let (s, ok, fills) ← fill (s.setBusy pf.pf_addr true) pf.pf_obj pf
    some (s.setBusy pf.pf_addr false, (pf, ok), fills)

/-- `shadow_fillpage`, with the fills. -/
def shadow_fillpage_log (s : State) (o : Nat) (pf : Pframe) : Option (State × Bool × List Fill) := do
  KASSERT (s.pf_busy pf.pf_addr = true)
  KASSERT (s.pf_pincount pf.pf_addr = 0)
  let s := pframe_pin s pf.pf_addr
  let below ← s.parent o
  match ← chainWalk s pf.pf_pagenum (chainFuel below) below with
  | .inl npframe => some (s.setMem pf.pf_addr (s.mem npframe.pf_addr), true, [.copied pf npframe])
  | .inr b => do
    let (s, (npframe, _), fills) ← get_log_by E (fillBottom_log E) s b pf.pf_pagenum
    some (s.setMem pf.pf_addr (s.mem npframe.pf_addr), true, fills ++ [.copied pf npframe])

/-- `fillpage`, with the fills. -/
def fillpage_log (s : State) (o : Nat) (pf : Pframe) : Option (State × Bool × List Fill) := do
  let ob ← s.objs o
  match ob.mmo_ops with
  | .shadow => shadow_fillpage_log E s o pf
  | _ => fillBottom_log E s o pf

/-- `pframe_get`, with the fills. -/
def get_log (s : State) (o pn : Nat) : Option (State × (Pframe × Bool) × List Fill) := get_log_by E (fillpage_log E) s o pn

section
variable {E}

theorem fillBottom_log_states (s : State) (o : Nat) (pf : Pframe) :
    (fillBottom_log E s o pf).map (fun r => (r.1, r.2.1)) = fillBottom E s o pf := by
  unfold fillBottom_log fillBottom
  simp only [bind, Option.map_bind]
  refine congrArg _ (funext fun ob => ?_)
  cases hops : ob.mmo_ops with
  | anon =>
    simp only [Function.comp_apply, hops, Option.map_bind]
    cases anon_fillpage s pf <;> rfl
  | shadow => simp only [Function.comp_apply, hops, Option.map_none]
  | vnode vn =>
    simp only [Function.comp_apply, hops, Option.map_bind]
    cases vreadpage E s vn pf <;> rfl

theorem get_log_by_states {fill : State → Nat → Pframe → Option (State × Bool)}
    {fillL : State → Nat → Pframe → Option (State × Bool × List Fill)}
    (h : ∀ s o pf, (fillL s o pf).map (fun r => (r.1, r.2.1)) = fill s o pf) (s : State) (o pn : Nat) :
    (get_log_by E fillL s o pn).map (fun r => (r.1, r.2.1.1, r.2.1.2)) = pframe_get_by E fill s o pn := by
  unfold get_log_by pframe_get_by
  cases pframe_get_resident s o pn with
  | mk s₁ r =>
    cases r with
    | some pf =>
      simp only
      split <;> rfl
    | none =>
      simp only [pframe_fill, ← h, bind, Option.map_bind]
      apply congrArg
      apply funext
      rintro ⟨s₂, pf⟩
      simp only [Function.comp_apply]
      cases fillL (s₂.setBusy pf.pf_addr true) pf.pf_obj pf <;> rfl

theorem shadow_fillpage_log_states (s : State) (o : Nat) (pf : Pframe) :
    (shadow_fillpage_log E s o pf).map (fun r => (r.1, r.2.1)) = shadow_fillpage E s o pf := by
  unfold shadow_fillpage_log shadow_fillpage
  simp only [bind, Option.map_bind, Function.comp_def, pframe_get_bottom, ← get_log_by_states (E := E) fillBottom_log_states]
  refine congrArg _ (funext fun _ => congrArg _ (funext fun _ => congrArg _ (funext fun below => congrArg _ (funext fun r => ?_))))
  cases r with
  | inl np => rfl
  | inr b =>
    simp only [Option.map_bind, Option.bind_map]
    rfl

theorem fillpage_log_states (s : State) (o : Nat) (pf : Pframe) :
    (fillpage_log E s o pf).map (fun r => (r.1, r.2.1)) = fillpage E s o pf := by
  unfold fillpage_log fillpage
  simp only [bind, Option.map_bind]
  refine congrArg _ (funext fun ob => ?_)
  cases hops : ob.mmo_ops with
  | shadow =>
    simp only [Function.comp_apply, hops]
    exact shadow_fillpage_log_states s o pf
  | _ =>
    simp only [Function.comp_apply, hops]
    exact fillBottom_log_states s o pf

/-- The states and results without the record are those of the model. -/
theorem get_log_states (s : State) (o pn : Nat) :
    (get_log E s o pn).map (fun r => (r.1, r.2.1.1, r.2.1.2)) = pframe_get E s o pn :=
  get_log_by_states fillpage_log_states s o pn

/-! ## What a get does -/

variable {C : Config} {s s' t : State} {o b pn : Nat} {pf np : Pframe} {ob : Mmobj} {ok : Bool} {fills : List Fill}

/-- The outcomes of `pframe_get`: the frames after it, the frame it returns, whether it succeeds, and the fills. -/
inductive GetFills (E : Env) (s : State) (o pn : Nat) : List Pframe → Pframe → Bool → List Fill → Prop
  | resident {p} : s.frame? o pn = some p → GetFills E s o pn s.pframes p true []
  | made {p q} : Fresh s o pn p → s.objs o = some q → q.mmo_ops = .anon → GetFills E s o pn (p :: s.pframes) p true [.made p]
  | read {p q vn} : Fresh s o pn p → s.objs o = some q → q.mmo_ops = .vnode vn →
      GetFills E s o pn (p :: s.pframes) p (E.io (s.clock + 1)) [.read p (E.io (s.clock + 1))]
  | copied {p n below} : Fresh s o pn p → s.parent o = some below → s.resolves below pn = some n →
      GetFills E s o pn (p :: s.pframes) p true [.copied p n]
  | upper {p n q below bottom fill} : Fresh s o pn p → s.parent o = some below → s.resolves below pn = none →
      s.bottomOf o = some bottom → s.objs bottom = some q → n.pf_addr ∉ p.pf_addr :: s.usedPages →
      (q.mmo_ops = .anon ∧ fill = .made n ∨ (∃ vn, q.mmo_ops = .vnode vn) ∧ fill = .read n (E.io (s.clock + 2))) →
      GetFills E s o pn (n :: p :: s.pframes) p true [fill, .copied p n]

theorem pframe_alloc_cases (hn : s.frame? o pn = none) (h : pframe_alloc E s o pn = some (s', pf)) :
    s' = s.withFrame pf ∧ Fresh s o pn pf := by
  have href : ∃ ob, s.objs o = some ob ∧ 0 < s.mmo_refcount o := by
    simp only [pframe_alloc, mmobj_ref, bind, Option.bind_eq_some_iff, KASSERT_eq_some] at h
    obtain ⟨-, ⟨ob, hob, -, hr, -⟩, -⟩ := h
    exact ⟨ob, hob, hr⟩
  obtain ⟨ob, hob, hr⟩ := href
  obtain ⟨pf', hfresh, ha⟩ := pframe_alloc_total (E := E) hob hr hn
  rw [h] at ha
  cases ha
  exact ⟨rfl, hfresh⟩

section
variable {fill : State → Nat → Pframe → Option (State × Bool × List Fill)}

theorem get_log_resident (hf : s.frame? o pn = some np) (h : get_log_by E fill s o pn = some (s', (pf, ok), fills)) :
    s'.pframes = s.pframes ∧ pf = np ∧ ok = true ∧ fills = [] := by
  simp only [get_log_by, pframe_get_resident, hf] at h
  by_cases hpin : s.pf_pincount np.pf_addr = 0
  · rw [if_pos hpin] at h
    simp only at h
    split at h
    · cases h
    · cases h
      exact ⟨rfl, rfl, rfl, rfl⟩
  · rw [if_neg hpin] at h
    simp only at h
    split at h
    · cases h
    · cases h
      exact ⟨rfl, rfl, rfl, rfl⟩

theorem get_log_new (hn : s.frame? o pn = none) (h : get_log_by E fill s o pn = some (s', (pf, ok), fills)) :
    Fresh s o pn pf ∧ ∃ t, fill ((s.withFrame pf).setBusy pf.pf_addr true) o pf = some (t, ok, fills) ∧ s'.pframes = t.pframes := by
  simp only [get_log_by, pframe_get_resident, hn, bind, Option.bind_eq_some_iff, Option.some.injEq, Prod.mk.injEq,
    Prod.exists] at h
  obtain ⟨s₁, pf', ha, t, ok', fills', hfill, rfl, ⟨rfl, rfl⟩, rfl⟩ := h
  obtain ⟨rfl, hfresh⟩ := pframe_alloc_cases hn ha
  rw [hfresh.obj] at hfill
  exact ⟨hfresh, t, hfill, rfl⟩

end

theorem pframe_pin_pframes (s : State) (pg : Nat) : (pframe_pin s pg).pframes = s.pframes := by
  unfold pframe_pin
  split
  · rfl
  · split <;> rfl

theorem fillBottom_log_cases (ho : s.objs o = some ob) (h : fillBottom_log E s o pf = some (t, ok, fills)) :
    t.pframes = s.pframes ∧ (ob.mmo_ops = .anon ∧ ok = true ∧ fills = [.made pf] ∨
      (∃ vn, ob.mmo_ops = .vnode vn) ∧ ok = E.io s.clock ∧ fills = [.read pf (E.io s.clock)]) := by
  simp only [fillBottom_log, ho, bind, Option.bind_some] at h
  cases hops : ob.mmo_ops with
  | shadow =>
    rw [hops] at h
    cases h
  | anon =>
    simp only [hops, anon_fillpage, bind, Option.bind_eq_some_iff, KASSERT_eq_some, Option.some.injEq, Prod.mk.injEq,
      Prod.exists] at h
    obtain ⟨t', ok', ⟨-, -, -, -, rfl, rfl⟩, rfl, rfl, rfl⟩ := h
    exact ⟨pframe_pin_pframes s pf.pf_addr, .inl ⟨rfl, rfl, rfl⟩⟩
  | vnode vn =>
    simp only [hops, vreadpage, Option.bind_eq_some_iff, Option.some.injEq, Prod.mk.injEq, Prod.exists] at h
    obtain ⟨t', ok', hread, rfl, rfl, rfl⟩ := h
    split at hread
    next hio =>
      cases hread
      exact ⟨rfl, .inr ⟨⟨vn, rfl⟩, hio.symm, by rw [hio]⟩⟩
    next hio =>
      cases hread
      have hio : E.io s.clock = false := by simpa using hio
      exact ⟨rfl, .inr ⟨⟨vn, rfl⟩, hio.symm, by rw [hio]⟩⟩

/-- A new frame of a shadow object is filled from the frame that is found below, or from the file or the zeros at the bottom. -/
theorem shadow_fills (hc : Chains s) (hf : Frames s) (hn : Fresh s o pn pf) (ho : s.objs o = some ob)
    (hs : ob.mmo_ops = .shadow)
    (h : shadow_fillpage_log E ((s.withFrame pf).setBusy pf.pf_addr true) o pf = some (t, ok, fills)) :
    GetFills E s o pn t.pframes pf ok fills := by
  obtain ⟨below, b, e1, hlt, hb, e4⟩ := hc.shadow o ob ho hs
  have hpar : s.parent o = some below := (Chains.parent_eq ho).trans e1
  have hbo : s.bottomOf o = some b := (Chains.bottom_shadow ho e1).trans e4
  obtain ⟨obb, hob, hobs⟩ := hc.bottom_obj hb
  have hadd := added_pinned hn ho (by simp [Mmobj.isFile, hs]) (s.mem pf.pf_addr)
  -- the walk starts when the new frame is there already
  have hpin := pframe_pin_new hf hn
  generalize hw : (s.withPinned pf (s.mem pf.pf_addr)).setBusy pf.pf_addr true = w at hpin
  have hwobjs : w.objs = s.objs := by rw [← hw]; rfl
  have hwparent : w.parent = s.parent := parent_congr hwobjs
  have hwframes : w.pframes = pf :: s.pframes := by rw [← hw]; rfl
  have hwclock : w.clock = s.clock + 1 := by rw [← hw]; rfl
  have hcw : Chains w := by rw [← hw]; exact hc.congr hadd.objs hadd.nobjs
  have hbw : w.bottomOf below = some b := (bottomOf_congr hwobjs below).trans hb
  have hres : w.resolves below pn = s.resolves below pn := by rw [← hw]; exact hadd.resolves_below hn hc pn hlt
  obtain ⟨r, hwalk, hfound, hbare⟩ := hcw.walk pn hbw (chainFuel below) (by unfold chainFuel; omega)
  simp only [shadow_fillpage_log, hpin, hn.pagenum, newFrame_busy, newFrame_pin, KASSERT, if_true, hwparent, hpar, hwalk, bind,
    Option.bind_some] at h
  cases r with
  | inl np =>
    cases h
    rw [show (w.setMem pf.pf_addr (w.mem np.pf_addr)).pframes = pf :: s.pframes from hwframes]
    exact .copied hn hpar (hres ▸ hfound np rfl)
  | inr x =>
    obtain ⟨rfl, hbare⟩ := hbare x rfl
    have hroot : w.parent x = none := (Chains.parent_eq ((congrFun hwobjs x).trans hob)).trans (hc.root x obb hob hobs)
    have hbottom : s.resolves below pn = w.frame? x pn := by
      rw [← hres]
      exact (Layers.find_skip hcw.grounded (hcw.reaches_bottom hbw) hbare).trans (Layers.find_root hcw.grounded hroot)
    simp only [Option.bind_eq_some_iff, Option.some.injEq, Prod.mk.injEq, Prod.exists] at h
    obtain ⟨u, np, ok', fills', hget, rfl, rfl, rfl⟩ := h
    cases hfr : w.frame? x pn with
    | some np' =>
      obtain ⟨e, rfl, -, rfl⟩ := get_log_resident hfr hget
      rw [show (u.setMem pf.pf_addr (u.mem np.pf_addr)).pframes = pf :: s.pframes from e.trans hwframes]
      exact .copied hn hpar (hbottom.trans hfr)
    | none =>
      obtain ⟨hnew, v, hfill, e⟩ := get_log_new hfr hget
      have hused : w.usedPages = pf.pf_addr :: s.usedPages := by simp [State.usedPages, hwframes]
      have haddr : np.pf_addr ∉ pf.pf_addr :: s.usedPages := hused ▸ hnew.addr
      have hobx : ((w.withFrame np).setBusy np.pf_addr true).objs x = some obb := (congrFun hwobjs x).trans hob
      obtain ⟨e', hkind⟩ := fillBottom_log_cases hobx hfill
      have hall : (u.setMem pf.pf_addr (u.mem np.pf_addr)).pframes = np :: pf :: s.pframes := by
        rw [← hwframes]
        exact e.trans e'
      have hclock : ((w.withFrame np).setBusy np.pf_addr true).clock = s.clock + 2 := congrArg (· + 1) hwclock
      rw [hall]
      rcases hkind with ⟨hops, -, rfl⟩ | ⟨hops, -, rfl⟩
      · exact .upper hn hpar (hbottom.trans hfr) hbo hob haddr (.inl ⟨hops, rfl⟩)
      · exact .upper hn hpar (hbottom.trans hfr) hbo hob haddr (.inr ⟨hops, by rw [hclock]⟩)

/-- What `pframe_get` does, in cases. -/
theorem get_log_fills (hc : Chains s) (hf : Frames s) (h : get_log E s o pn = some (s', (pf, ok), fills)) :
    GetFills E s o pn s'.pframes pf ok fills := by
  cases hres : s.frame? o pn with
  | some np =>
    obtain ⟨e, rfl, rfl, rfl⟩ := get_log_resident hres h
    rw [e]
    exact .resident hres
  | none =>
    obtain ⟨hn, t, hfill, e⟩ := get_log_new hres h
    rw [e]
    simp only [fillpage_log, bind, Option.bind_eq_some_iff] at hfill
    obtain ⟨ob, ho, hfill⟩ := hfill
    have ho' : s.objs o = some ob := ho
    by_cases hs : ob.mmo_ops = .shadow
    · have hshadow : shadow_fillpage_log E ((s.withFrame pf).setBusy pf.pf_addr true) o pf = some (t, ok, fills) := by
        simpa only [hs] using hfill
      exact shadow_fills hc hf hn ho' hs hshadow
    · have hbottom : fillBottom_log E ((s.withFrame pf).setBusy pf.pf_addr true) o pf = some (t, ok, fills) := by
        cases hops : ob.mmo_ops with
        | shadow => exact absurd hops hs
        | _ => simpa only [hops] using hfill
      obtain ⟨e, ⟨hops, rfl, rfl⟩ | ⟨⟨vn, hops⟩, rfl, rfl⟩⟩ := fillBottom_log_cases ho hbottom
      · rw [e]
        exact .made hn ho' hops
      · rw [e]
        exact .read hn ho' hops

/-! ## Where the contents of a frame come from -/

/-- Where a frame has its contents from: a `fillpage` that succeeded, one that
returned an error, or a copy of a frame that was not filled. -/
inductive Origin
  | filled
  | failed
  | stale
  deriving DecidableEq

/-- By physical page. -/
abbrev Origins := Nat → Origin

/-- The origins after a fill. -/
def Fill.note (g : Origins) : Fill → Origins
  | .made pf => Function.update g pf.pf_addr .filled
  | .read pf ok => Function.update g pf.pf_addr (if ok then .filled else .failed)
  | .copied pf np => Function.update g pf.pf_addr (if g np.pf_addr = .filled then .filled else .stale)

/-- The pages that are resident were filled, or left behind by a fill that failed. -/
def Noted (s : State) (g : Origins) : Prop := ∀ pf ∈ s.pframes, g pf.pf_addr = .filled ∨ g pf.pf_addr = .failed

/-- Getting page `pn` of `o` meets no failure that it does not report: it takes no
frame that a failed fill has left, and no copy of a page of a file that cannot be read. -/
structure Unhit (E : Env) (s : State) (g : Origins) (o pn : Nat) : Prop where
  own : ∀ pf, s.frame? o pn = some pf → g pf.pf_addr ≠ .failed
  found : ∀ below np, s.frame? o pn = none → s.parent o = some below → s.resolves below pn = some np → g np.pf_addr ≠ .failed
  read : ∀ below b ob vn, s.frame? o pn = none → s.parent o = some below → s.resolves below pn = none → s.bottomOf o = some b →
    s.objs b = some ob → ob.mmo_ops = .vnode vn → E.io (s.clock + 2) = true

theorem resolves_mem (hc : Chains s) (h : s.resolves o pn = some np) : np ∈ s.pframes := by
  obtain ⟨y, -, hy⟩ := Layers.find_reaches hc.grounded h
  exact List.mem_of_find?_eq_some hy

theorem Chains.no_parent (hc : Chains s) (ho : s.objs o = some ob) (hs : ob.mmo_ops ≠ .shadow) : s.parent o = none :=
  (Chains.parent_eq ho).trans (hc.root o ob ho hs)

/-- What a get serves: a frame that was filled exactly when no failure is met that is not reported. -/
theorem GetFills.served {fs : List Pframe} {g : Origins} (hc : Chains s) (hg : Noted s g) (h : GetFills E s o pn fs pf ok fills) :
    ((ok = true → fills.foldl Fill.note g pf.pf_addr = .filled) ↔ Unhit E s g o pn) ∧
      (ok = false → fills.foldl Fill.note g pf.pf_addr = .failed) := by
  cases h with
  | resident hf =>
    obtain ⟨hm, -⟩ : pf ∈ s.pframes ∧ True := ⟨List.mem_of_find?_eq_some hf, trivial⟩
    refine ⟨⟨fun h => ⟨fun p hp => ?_, fun below np hn => ?_, fun below b ob vn hn => ?_⟩, fun h _ => ?_⟩, fun h => by cases h⟩
    · rw [hf] at hp
      cases hp
      have hfilled : g pf.pf_addr = .filled := h rfl
      rw [hfilled]
      decide
    · rw [hf] at hn
      cases hn
    · rw [hf] at hn
      cases hn
    · exact (hg pf hm).resolve_right (h.own pf hf)
  | @made _ q hn ho hops =>
    have hp := hc.no_parent ho (by simp [hops])
    refine ⟨⟨fun _ => ⟨fun p hf => ?_, fun below np _ hb => ?_, fun below b ob vn _ hb => ?_⟩, fun _ _ => ?_⟩, fun h => by cases h⟩
    · rw [hn.page] at hf
      cases hf
    · rw [hp] at hb
      cases hb
    · rw [hp] at hb
      cases hb
    · exact Function.update_self ..
  | @read _ q vn hn ho hops =>
    have hp := hc.no_parent ho (by simp [hops])
    refine ⟨⟨fun _ => ⟨fun p hf => ?_, fun below np _ hb => ?_, fun below b ob vn _ hb => ?_⟩, fun _ h => ?_⟩, fun h => ?_⟩
    · rw [hn.page] at hf
      cases hf
    · rw [hp] at hb
      cases hb
    · rw [hp] at hb
      cases hb
    · simp [Fill.note, h]
    · simp [Fill.note, h]
  | @copied _ np below hn hp hres =>
    have hm := resolves_mem hc hres
    have hnote : [Fill.copied pf np].foldl Fill.note g pf.pf_addr = if g np.pf_addr = .filled then .filled else .stale :=
      Function.update_self ..
    rw [hnote]
    refine ⟨⟨fun h => ⟨fun p hf => ?_, fun below' np' _ hb hr => ?_, fun below' b ob vn _ hb hr => ?_⟩, fun h _ => ?_⟩, fun h => by cases h⟩
    · rw [hn.page] at hf
      cases hf
    · rw [hp] at hb
      cases hb
      rw [hres] at hr
      cases hr
      intro hfail
      have := h rfl
      rw [hfail] at this
      cases this
    · rw [hp] at hb
      cases hb
      rw [hres] at hr
      cases hr
    · rw [if_pos ((hg np hm).resolve_right (h.found below np hn.page hp hres))]
  | @upper _ np q below b fill hn hp hres hb ho haddr hkind =>
    have hne : np.pf_addr ≠ pf.pf_addr := fun e => haddr (by simp [e])
    have hnote : [fill, Fill.copied pf np].foldl Fill.note g pf.pf_addr =
        if fill.note g np.pf_addr = .filled then .filled else .stale := Function.update_self ..
    rw [hnote]
    refine ⟨⟨fun h => ⟨fun p hf => ?_, fun below' np' _ hb' hr => ?_, fun below' b' ob vn _ hb' hr hbo hob hops => ?_⟩, fun h _ => ?_⟩,
      fun h => by cases h⟩
    · rw [hn.page] at hf
      cases hf
    · rw [hp] at hb'
      cases hb'
      rw [hres] at hr
      cases hr
    · rw [hb] at hbo
      cases hbo
      rw [ho] at hob
      cases hob
      rcases hkind with ⟨hanon, -⟩ | ⟨-, rfl⟩
      · rw [hanon] at hops
        cases hops
      · by_contra hio
        have := h rfl
        simp [Fill.note, hio] at this
    · rcases hkind with ⟨-, rfl⟩ | ⟨⟨vn, hops⟩, rfl⟩
      · simp [Fill.note]
      · have hio := h.read below b q vn hn.page hp hres hb ho hops
        simp [Fill.note, hio]

/-- After such a get every resident page is filled or left behind by a fill that failed. -/
theorem GetFills.noted {fs : List Pframe} {g : Origins} (hc : Chains s) (hg : Noted s g) (h : GetFills E s o pn fs pf ok fills)
    (hu : Unhit E s g o pn) : ∀ p ∈ fs, fills.foldl Fill.note g p.pf_addr = .filled ∨ fills.foldl Fill.note g p.pf_addr = .failed := by
  obtain ⟨hserved, hfailed⟩ := h.served hc hg
  -- the frame itself
  have hself : fills.foldl Fill.note g pf.pf_addr = .filled ∨ fills.foldl Fill.note g pf.pf_addr = .failed := by
    cases hok : ok with
    | true => exact .inl (hserved.2 hu hok)
    | false => exact .inr (hfailed hok)
  have hold {p q : Pframe} (hn : Fresh s o pn q) (hp : p ∈ s.pframes) : p.pf_addr ≠ q.pf_addr := hn.addr_ne hp
  cases h with
  | resident => exact hg
  | made hn =>
    intro p hp
    rcases List.mem_cons.1 hp with rfl | hp
    · exact hself
    · simpa [Fill.note, Function.update_of_ne (hold hn hp)] using hg p hp
  | read hn =>
    intro p hp
    rcases List.mem_cons.1 hp with rfl | hp
    · exact hself
    · simpa [Fill.note, Function.update_of_ne (hold hn hp)] using hg p hp
  | copied hn =>
    intro p hp
    rcases List.mem_cons.1 hp with rfl | hp
    · exact hself
    · simpa [Fill.note, Function.update_of_ne (hold hn hp)] using hg p hp
  | @upper _ np q below b fill hn _ _ _ _ haddr hkind =>
    have hne : np.pf_addr ≠ pf.pf_addr := fun e => haddr (by simp [e])
    intro p hp
    rcases List.mem_cons.1 hp with rfl | hp
    · rcases hkind with ⟨-, rfl⟩ | ⟨-, rfl⟩
      · simp [Fill.note, Function.update_of_ne hne]
      · simp only [List.foldl_cons, List.foldl_nil, Fill.note, Function.update_of_ne hne, Function.update_self]
        cases E.io (s.clock + 2)
        · exact .inr rfl
        · exact .inl rfl
    rcases List.mem_cons.1 hp with rfl | hp
    · exact hself
    · have hnp : p.pf_addr ≠ np.pf_addr := fun e => haddr (List.mem_cons_of_mem _ (e ▸ List.mem_map_of_mem hp))
      rcases hkind with ⟨-, rfl⟩ | ⟨-, rfl⟩
      · simpa [Fill.note, Function.update_of_ne (hold hn hp), Function.update_of_ne hnp] using hg p hp
      · simpa [Fill.note, Function.update_of_ne (hold hn hp), Function.update_of_ne hnp] using hg p hp

/-! ## Runs -/

/-- Getting a page, or whatever else the kernel does between two gets: then there are no new frames. -/
inductive PageOp
  | get (o pn : Nat)
  | other (t : State)

/-- One operation, on the state and the origins. A get gives its frame, and whether it succeeds. -/
def pageStep (E : Env) : State × Origins → PageOp → Option ((State × Origins) × Option (Pframe × Bool))
  | (s, g), .get o pn => do
    let (s, r, fills) ← get_log E s o pn
    some ((s, fills.foldl Fill.note g), some r)
  | (_, g), .other t => some ((t, g), none)

/-- A page is got by who may, and no failure is met that is not reported. What else happens keeps the invariants. -/
def PageOp.Allowed (C : Config) (E : Env) (x : State × Origins) : PageOp → Prop
  | .get o pn => RefOp.Called C x.1 (.pframe_get o pn) ∧ Unhit E x.1 x.2 o pn
  | .other t => Sound C t ∧ ∀ pf ∈ t.pframes, pf ∈ x.1.pframes

theorem pageStep_get {g g' : Origins} {r : Option (Pframe × Bool)}
    (h : pageStep E (s, g) (.get o pn) = some ((s', g'), r)) : ∃ pf ok fills, get_log E s o pn = some (s', (pf, ok), fills) ∧
      pframe_get E s o pn = some (s', pf, ok) ∧ g' = fills.foldl Fill.note g ∧ r = some (pf, ok) := by
  simp only [pageStep, bind, Option.bind_eq_some_iff, Option.some.injEq, Prod.mk.injEq, Prod.exists] at h
  obtain ⟨s₁, pf, ok, fills, hlog, ⟨rfl, rfl⟩, rfl⟩ := h
  exact ⟨pf, ok, fills, hlog, by rw [← get_log_states, hlog]; rfl, rfl, rfl⟩

/-- The invariants of the kernel hold, and the resident pages are filled or left behind by a fill that failed. -/
theorem run_noted {x₀ x : State × Origins} (h0 : Booted x₀.1) {tr : List (PageOp × Option (Pframe × Bool))}
    (h : Run (pageStep E) (PageOp.Allowed C E) x₀ x tr) : Sound C x.1 ∧ Noted x.1 x.2 := by
  apply h.inv (fun x => Sound C x.1 ∧ Noted x.1 x.2)
  · refine ⟨h0.sound, fun pf hm => ?_⟩
    rw [h0.pframes] at hm
    cases hm
  · rintro ⟨s, g⟩ e ⟨s', g'⟩ r ⟨hS, hg⟩ hok hst
    cases e with
    | other t =>
      cases hst
      obtain ⟨hS', hsub⟩ := hok
      exact ⟨hS', fun pf hm => hg pf (hsub pf hm)⟩
    | get o pn =>
      obtain ⟨hcall, hu⟩ := hok
      obtain ⟨pf, ok, fills, hlog, hget, rfl, -⟩ := pageStep_get hst
      obtain ⟨held, -, hB⟩ := hS.held
      obtain ⟨s₁, hs₁, hS₁, -⟩ := refStep_total (E := E) hS hcall
      have e : s₁ = s' := by
        simp only [refStep, hget, bind, Option.bind_some, Option.some.injEq, Prod.mk.injEq] at hs₁
        exact hs₁.1.symm
      subst e
      exact ⟨hS₁, (get_log_fills hB.chains hB.frames hlog).noted hB.chains hg hu⟩

/-- In a run without a failure that is met and not reported, a get that succeeds
gives a frame that a successful `fillpage` of its page has filled exactly when
it meets none either. A get that fails gives one that was not filled. -/
theorem get_filled_iff {x₀ : State × Origins} {g g' : Origins} (h0 : Booted x₀.1) {tr : List (PageOp × Option (Pframe × Bool))}
    (h : Run (pageStep E) (PageOp.Allowed C E) x₀ (s, g) tr)
    (hst : pageStep E (s, g) (.get o pn) = some ((s', g'), some (pf, ok))) : (pf.pf_obj = o ∧ pf.pf_pagenum = pn) ∧
      ((ok = true → g' pf.pf_addr = .filled) ↔ Unhit E s g o pn) ∧ (ok = false → g' pf.pf_addr = .failed) := by
  obtain ⟨hS, hg⟩ := run_noted h0 h
  obtain ⟨held, -, hB⟩ := hS.held
  obtain ⟨pf', ok', fills, hlog, hget, rfl, hr⟩ := pageStep_get hst
  cases hr
  exact ⟨pframe_get_pagenum hget, (get_log_fills hB.chains hB.frames hlog).served hB.chains hg⟩

/-- A disk that never works. -/
def Env.broken : Env := { Env.simple with io := fun _ => false }

/-- The second get of a page that cannot be read succeeds, with what was in memory. -/
theorem unfilled_page_served : ∃ (s₁ s₂ : State) (g₁ g₂ : Origins) (pf : Pframe),
    pageStep .broken (oneFile, fun _ => .filled) (.get 0 1) = some ((s₁, g₁), some (pf, false)) ∧
    pageStep .broken (s₁, g₁) (.get 0 1) = some ((s₂, g₂), some (pf, true)) ∧
    g₂ pf.pf_addr = .failed ∧ s₂.mem pf.pf_addr 0 = 0 ∧ s₂.disk 0 (PN_TO_ADDR 1) 0 = 1 := by
  have hex : ((pageStep .broken (oneFile, fun _ => .filled) (.get 0 1)).bind fun r =>
      (pageStep .broken r.1 (.get 0 1)).map fun q => (r.2, q.2, q.1.2 1, q.1.1.mem 1 0, q.1.1.disk 0 (PN_TO_ADDR 1) 0)) =
      some (some (⟨1, 0, 1⟩, false), some (⟨1, 0, 1⟩, true), .failed, 0, 1) := by decide +kernel
  simp only [Option.bind_eq_some_iff, Option.map_eq_some_iff, Prod.mk.injEq, Prod.exists] at hex
  obtain ⟨s₁, g₁, r, h1, s₂, g₂, q, h2, rfl, rfl, h3, h4, h5⟩ := hex
  exact ⟨s₁, s₂, g₁, g₂, ⟨1, 0, 1⟩, h1, h2, h3, h4, h5⟩

/-- Where the disk works the page is filled. -/
theorem first_page_filled : ∃ (s' : State) (g' : Origins) (pf : Pframe),
    pageStep .simple (oneFile, fun _ => .failed) (.get 0 1) = some ((s', g'), some (pf, true)) ∧ g' pf.pf_addr = .filled := by
  have hex : (pageStep .simple (oneFile, fun _ => .failed) (.get 0 1)).map (·.2) = some (some (⟨1, 0, 1⟩, true)) := by
    decide +kernel
  obtain ⟨⟨⟨s', g'⟩, r⟩, hst, rfl⟩ := Option.map_eq_some_iff.1 hex
  have hrun : Run (pageStep .simple) (PageOp.Allowed .stock .simple) (oneFile, fun _ => .failed) (oneFile, fun _ => .failed) [] := .nil
  refine ⟨s', g', _, hst, (get_filled_iff oneFile_booted hrun hst).2.1.2 ⟨fun p hp => ?_, fun below np _ hp => ?_,
    fun below b ob vn _ hp => ?_⟩ rfl⟩
  · cases hp
  · cases hp
  · cases hp

end

end Weenix.Vm
