import Weenix.Vfs.Rename
import Weenix.Vfs.VmNames
/-!
# What `dir_namev` of vm-submit gives its caller (`namev.c`)

The loop once more, with the pointers it moves through its copy of the path.
`localPtr` is the component it is at, up to the end that was written over its
slash, and `tempRes` what comes behind. `dir_namev_resolves` says which paths
are walked to their end, and what is in the out-arguments then.
-/

namespace Weenix.Vfs.VmSubmit

variable {σ : Type}

/-- The out-arguments. `name` points into the path; it is an offset here. -/
structure DirName where
  res_vnode : Nat
  name : Nat
  namelen : Nat
  deriving DecidableEq

/-- The bytes of the name. -/
def DirName.text (d : DirName) (pathname : Name) : Name := (pathname.drop d.name).take d.namelen

/-- `strchr` for the slash, and an end written over it. Behind the last component `tempRes` is `NULL`. -/
def cut : Name → Name × Option Name
  | [] => ([], none)
  | c :: cs => if c = '/' then ([], some cs) else (c :: (cut cs).1, (cut cs).2)

theorem cut_lt {l r : Name} (h : (cut l).2 = some r) : r.length < l.length := by
  induction l with
  | nil => cases h
  | cons c cs ih =>
    simp only [cut] at h
    split at h
    · cases h
      exact Nat.lt_succ_self _
    · exact (ih h).trans (Nat.lt_succ_self _)

section
variable (L : Limits) (F : Fs σ) (base root : Nat)

/-- The loop. The result has `tempVnode` and `*namelen`. -/
def walk_out (s : State σ) (tempVnode namelen : Nat) (localPtr : Name) (tempRes : Option Name) :
    Option (State σ × Except Errno (Nat × Nat)) :=
  match tempRes with
  | none =>
    match lookup F s tempVnode localPtr with
    | (s, .ok vnodeObj) => do
      let s ← s.vput vnodeObj
      some (s, .ok (tempVnode, namelen))
    | (s, .error .ENOENT) => some (s, .ok (tempVnode, namelen))
    | (s, .error e) => do
      let s ← s.vput tempVnode
      some (s, .error e)
  | some next =>
    -- `localPtr == '\0'` compares the pointer, which is not `NULL`
    match lookup F s tempVnode localPtr with
    | (s, .error e) => do
      let s ← s.vput tempVnode
      some (s, .error e)
    | (s, .ok vnodeObj) =>
      if L.NAME_LEN < (cut next).1.length then do
        let s ← s.vput vnodeObj
        let s ← s.vput tempVnode
        some (s, .error .ENAMETOOLONG)
      else do
        let s ← s.vput tempVnode
        walk_out s vnodeObj (cut next).1.length (cut next).1 (cut next).2
termination_by tempRes.elim 0 (·.length + 1)
decreasing_by
  cases h : (cut next).2 with
  | none => simp
  | some r => simpa using cut_lt h

/-- After the base has been referenced; `localPath` is the copy of the path from `localPtr` on. -/
def namev_from_out (s : State σ) (tempVnode namelen : Nat) (pathname localPath : Name) :
    Option (State σ × Except Errno DirName) :=
  let (localPtr, tempRes) := cut localPath
  let namelen := if 0 < localPtr.length then localPtr.length else namelen
  if 0 < localPtr.length ∧ L.NAME_LEN < namelen then do
    let s ← s.vput tempVnode
    some (s, .error .ENAMETOOLONG)
  else do
    match ← walk_out L F s tempVnode namelen localPtr tempRes with
    | (s, .error e) => some (s, .error e)
    | (s, .ok (res_vnode, namelen)) => some (s, .ok ⟨res_vnode, pathname.length - namelen, namelen⟩)

/-- `namelen` has what the caller left in it. -/
def dir_namev_out (s : State σ) (pathname : Name) (namelen : Nat) : Option (State σ × Except Errno DirName) := do
  KASSERT (pathname.length < L.MAXPATHLEN)
  match pathname with
  | [] => do
    let s ← (s.vget base).vput base
    some (s, .error .EINVAL)
  | c :: cs =>
    if c = '/' then
      let s := s.vget root
      if cs = [] then some (s, .ok ⟨root, 0, pathname.length⟩) else namev_from_out L F s root namelen pathname cs
    else namev_from_out L F (s.vget base) base namelen pathname pathname

end

/-! ## Components -/

/-- What is still to be cut. -/
def pieces : Option Name → List Name
  | none => []
  | some next => next.splitOn '/'

theorem splitOn_cut (l : Name) : l.splitOn '/' = (cut l).1 :: pieces (cut l).2 := by
  induction l with
  | nil => rfl
  | cons c cs ih =>
    rw [List.splitOn_cons_eq_if_modifyHead]
    by_cases hc : c = '/'
    · simp [cut, hc, pieces]
    · simp [cut, hc, ih]

/-- The last component ends the path. -/
theorem splitOn_last (l : Name) : (l.splitOn '/').getLast (List.splitOn_ne_nil '/' l) <:+ l := by
  have hend : ∀ (cs : List Name) (h : cs ≠ []), cs.getLast h <:+ ['/'].intercalate cs := by
    intro cs h
    induction cs with
    | nil => exact absurd rfl h
    | cons c cs ih =>
      cases cs with
      | nil => simp
      | cons d ds =>
        rw [List.getLast_cons (List.cons_ne_nil d ds), List.intercalate_cons_cons]
        exact (ih (List.cons_ne_nil d ds)).trans (List.suffix_append _ _)
  have h := hend (l.splitOn '/') (List.splitOn_ne_nil '/' l)
  rwa [List.intercalate_splitOn] at h

theorem splitOn_no_slash {l x : Name} (h : x ∈ l.splitOn '/') : '/' ∉ x := by
  induction l generalizing x with
  | nil =>
    obtain rfl : x = [] := by simpa using h
    simp
  | cons c cs ih =>
    rw [List.splitOn_cons_eq_if_modifyHead] at h
    split at h
    · rcases List.mem_cons.1 h with rfl | h
      · simp
      · exact ih h
    next hc =>
      obtain ⟨y, ys, hy⟩ := List.exists_cons_of_ne_nil (List.splitOn_ne_nil '/' cs)
      rw [hy, List.modifyHead_cons] at h
      rcases List.mem_cons.1 h with rfl | h
      · have hne : '/' ≠ c := fun e => hc (beq_iff_eq.2 e.symm)
        simpa [hne] using ih (x := y) (by simp [hy])
      · exact ih (by simp [hy, h])

variable {L : Limits} {F : Fs σ} {base root : Nat} {T : Tree}

/-- The loop with the pointers is the loop over the components. -/
theorem walk_out_eq (s : State σ) (dir namelen : Nat) (localPtr : Name) (tempRes : Option Name)
    (h : namelen = localPtr.length ∨ tempRes ≠ none) :
    walk_out L F s dir namelen localPtr tempRes = (walk L F s dir localPtr (pieces tempRes)).map fun r =>
      (r.1, r.2.map fun x => (x.1, x.2.length)) := by
  fun_induction walk_out L F s dir namelen localPtr tempRes with
  | case1 s dir namelen localPtr s' v hlook =>
    obtain rfl : namelen = localPtr.length := h.resolve_right fun hne => hne rfl
    simp only [pieces, walk, hlook]
    cases s'.vput v <;> rfl
  | case2 s dir namelen localPtr s' hlook =>
    obtain rfl : namelen = localPtr.length := h.resolve_right fun hne => hne rfl
    simp only [pieces, walk, hlook]
    rfl
  | case3 s dir namelen localPtr s' e hne hlook =>
    simp only [pieces, walk, hlook]
    cases e <;> first | exact absurd rfl hne | (cases s'.vput dir <;> rfl)
  | case4 s dir namelen localPtr next s' e hlook =>
    simp only [pieces, splitOn_cut next, walk, hlook]
    cases s'.vput dir <;> rfl
  | case5 s dir namelen localPtr next s' v hlook hlong =>
    simp only [pieces, splitOn_cut next, walk, hlook, if_pos hlong]
    cases s'.vput v with
    | none => rfl
    | some s₁ =>
      simp only [bind, Option.bind_some]
      cases s₁.vput dir <;> rfl
  | case6 s dir namelen localPtr next s' v hlook hlong ih =>
    simp only [pieces, splitOn_cut next, walk, hlook, if_neg hlong]
    cases s'.vput dir with
    | none => rfl
    | some s₁ =>
      simp only [bind, Option.bind_some]
      exact ih s₁ (.inl rfl)

/-- The out-arguments, for a directory and a component of the path. -/
def outArgs (path : Name) (x : Nat × Name) : DirName := ⟨x.1, path.length - x.2.length, x.2.length⟩

theorem namev_from_out_eq (s : State σ) (dir namelen : Nat) (path : Name) {cs : Name} (hcs : cs ≠ []) :
    namev_from_out L F s dir namelen path cs = (namev_from L F s dir (cs.splitOn '/')).map fun r =>
      (r.1, r.2.map (outArgs path)) := by
  -- a first component that is empty is not the last one
  have hnext : (cut cs).1.length = 0 → (cut cs).2 ≠ none := by
    intro h0
    cases cs with
    | nil => exact absurd rfl hcs
    | cons c cs =>
      unfold cut at h0 ⊢
      split at h0
      next hc => simp [hc]
      next hc => simp at h0
  have hwalk (n : Nat) (hn : n = (cut cs).1.length ∨ (cut cs).2 ≠ none) :
      ((walk_out L F s dir n (cut cs).1 (cut cs).2).bind fun
        | (s, .error e) => some (s, .error e)
        | (s, .ok (v, namelen)) => some (s, .ok ⟨v, path.length - namelen, namelen⟩)) =
      (walk L F s dir (cut cs).1 (pieces (cut cs).2)).map fun r => (r.1, r.2.map (outArgs path)) := by
    rw [walk_out_eq s dir n _ _ hn]
    cases walk L F s dir (cut cs).1 (pieces (cut cs).2) with
    | none => rfl
    | some r =>
      obtain ⟨s', r⟩ := r
      cases r <;> rfl
  simp only [namev_from_out, splitOn_cut, namev_from]
  by_cases h0 : 0 < (cut cs).1.length
  · simp only [h0, if_true, true_and]
    split
    · cases s.vput dir <;> rfl
    · exact hwalk _ (.inl rfl)
  · have h0 : (cut cs).1.length = 0 := Nat.eq_zero_of_not_pos h0
    simp only [h0, Nat.lt_irrefl, false_and, if_false, Nat.not_lt_zero]
    exact hwalk _ (.inr (hnext h0))

/-- The out-arguments are the directory and the last component. -/
theorem dir_namev_out_eq (s : State σ) (path : Name) (namelen : Nat) :
    dir_namev_out L F base root s path namelen = (dir_namev L F base root s path).map fun r =>
      (r.1, r.2.map (outArgs path)) := by
  unfold dir_namev_out dir_namev KASSERT
  split
  · cases path with
    | nil =>
      simp only [bind, Option.bind_some]
      cases (s.vget base).vput base <;> rfl
    | cons c cs =>
      simp only [bind, Option.bind_some]
      split
      · split
        next hcs =>
          rw [hcs]
          rfl
        next hcs => exact namev_from_out_eq _ root namelen _ hcs
      · exact namev_from_out_eq _ base namelen _ (List.cons_ne_nil c cs)
  · rfl

/-! ## Where a path leads -/

/-- The components are looked up in turn. -/
def follow (T : Tree) : Nat → List Name → Except Errno Nat
  | dir, [] => .ok dir
  | dir, c :: cs =>
    match find T dir c with
    | .error e => .error e
    | .ok v => follow T v cs

/-- All components but the last lead to `dir`, and the last, `name`, is there or missing. -/
structure LeadsTo (L : Limits) (T : Tree) (start : Nat) (cs : List Name) (dir : Nat) (name : Name) : Prop where
  short : ∀ c ∈ cs, c.length ≤ L.NAME_LEN
  ends : cs.getLast? = some name
  followed : follow T start cs.dropLast = .ok dir
  found : (∃ v, find T dir name = .ok v) ∨ find T dir name = .error .ENOENT

theorem last_iff {dir dir' : Nat} {c name : Name} {rest : List Name} (hc : c.length ≤ L.NAME_LEN) :
    last L T dir c rest = .ok (dir', name) ↔ LeadsTo L T dir (c :: rest) dir' name := by
  induction rest generalizing dir c with
  | nil =>
    simp only [last]
    constructor
    · intro h
      cases hf : find T dir c with
      | ok v =>
        rw [hf] at h
        cases h
        exact ⟨by simpa using hc, rfl, rfl, .inl ⟨v, hf⟩⟩
      | error e =>
        rw [hf] at h
        cases e <;> cases h
        exact ⟨by simpa using hc, rfl, rfl, .inr hf⟩
    · rintro ⟨-, hlast, hfollow, hfound⟩
      obtain rfl : c = name := by simpa using hlast
      cases hfollow
      rcases hfound with ⟨v, hv⟩ | hno
      · rw [hv]
      · rw [hno]
  | cons next rest ih =>
    simp only [last]
    constructor
    · intro h
      cases hf : find T dir c with
      | error e =>
        rw [hf] at h
        cases h
      | ok v =>
        rw [hf] at h
        dsimp only at h
        split at h
        · cases h
        next hnext =>
          obtain ⟨hshort, hlast, hfollow, hfound⟩ := (ih (Nat.not_lt.1 hnext)).1 h
          refine ⟨List.forall_mem_cons.2 ⟨hc, hshort⟩, by rwa [List.getLast?_cons_cons], ?_, hfound⟩
          rw [List.dropLast_cons_of_ne_nil (List.cons_ne_nil _ _), follow, hf]
          exact hfollow
    · rintro ⟨hshort, hlast, hfollow, hfound⟩
      rw [List.dropLast_cons_of_ne_nil (List.cons_ne_nil _ _), follow] at hfollow
      have hnext : ¬ L.NAME_LEN < next.length := Nat.not_lt.2 (hshort next (by simp))
      cases hf : find T dir c with
      | error e =>
        rw [hf] at hfollow
        cases hfollow
      | ok v =>
        rw [hf] at hfollow
        simp only [if_neg hnext]
        exact (ih (Nat.not_lt.1 hnext)).2
          ⟨fun x hx => hshort x (List.mem_cons_of_mem _ hx), by rwa [List.getLast?_cons_cons] at hlast, hfollow, hfound⟩

theorem last_from_iff {start dir : Nat} {name : Name} {cs : List Name} :
    last_from L T start cs = .ok (dir, name) ↔ LeadsTo L T start cs dir name := by
  cases cs with
  | nil => exact ⟨fun h => (by cases h), fun h => (by cases h.ends)⟩
  | cons c rest =>
    simp only [last_from]
    split
    next hlong => exact ⟨fun h => (by cases h), fun h => absurd hlong (Nat.not_lt.2 (h.short c (by simp)))⟩
    next hshort => exact last_iff (Nat.not_lt.1 hshort)

/-! ## Slashes -/

/-- The components of a path: the first, and the others, each with the number of slashes in front of it
that are one too many. -/
def spell : Name → List (Nat × Name) → Name
  | c, [] => c
  | c, (k, d) :: rest => c ++ '/' :: (List.replicate k '/' ++ spell d rest)

/-- Between two slashes there is an empty component. -/
def gaps (rest : List (Nat × Name)) : List Name := rest.flatMap fun x => List.replicate x.1 [] ++ [x.2]

theorem splitOn_replicate (k : Nat) (l : Name) : (List.replicate k '/' ++ l).splitOn '/' = List.replicate k [] ++ l.splitOn '/' := by
  induction k with
  | zero => rfl
  | succ k ih =>
    rw [List.replicate_succ, List.cons_append, List.splitOn_cons_eq_if_modifyHead, if_pos (by simp), ih]
    rfl

theorem splitOn_spell {c : Name} {rest : List (Nat × Name)} (h : ∀ x ∈ c :: rest.map Prod.snd, '/' ∉ x) :
    (spell c rest).splitOn '/' = c :: gaps rest := by
  induction rest generalizing c with
  | nil => exact List.splitOn_eq_singleton (h c (by simp))
  | cons x rest ih =>
    obtain ⟨k, d⟩ := x
    rw [spell, List.splitOn_append_cons_self_of_not_mem (h c (by simp)), splitOn_replicate,
      ih fun x hx => h x (List.mem_cons_of_mem _ (by simpa using hx))]
    simp [gaps]

/-- Looking up an empty component stays in the directory. -/
theorem last_skips {v k : Nat} {e : Name} {g : List Name} (he : e.length ≤ L.NAME_LEN) :
    last L T v [] (List.replicate k [] ++ e :: g) = last L T v e g := by
  by_cases hl : T.hasLookup v = true
  · have hself : find T v [] = .ok v := by simp [find, hl]
    induction k with
    | zero => simp [last, hself, Nat.not_lt.2 he]
    | succ k ih =>
      rw [List.replicate_succ, List.cons_append, last, hself]
      simpa using ih
  · have hno (x : Name) : find T v x = .error .ENOTDIR := by simp [find, hl]
    have hlast (x : Name) (xs : List Name) : last L T v x xs = .error .ENOTDIR := by
      cases xs <;> simp [last, hno]
    rw [hlast, hlast]

theorem last_gaps {dir : Nat} {c : Name} {rest : List (Nat × Name)} (h : ∀ x ∈ rest.map Prod.snd, x.length ≤ L.NAME_LEN) :
    last L T dir c (gaps rest) = last L T dir c (rest.map Prod.snd) := by
  induction rest generalizing dir c with
  | nil => rfl
  | cons x rest ih =>
    obtain ⟨k, d⟩ := x
    have hd : d.length ≤ L.NAME_LEN := h d (by simp)
    have ih := fun v => @ih v d fun x hx => h x (List.mem_cons_of_mem _ hx)
    have hgaps : gaps ((k, d) :: rest) = List.replicate k [] ++ d :: gaps rest := by simp [gaps]
    rw [hgaps, List.map_cons, last]
    cases k with
    | zero =>
      simp only [List.replicate_zero, List.nil_append, last, ih]
    | succ k =>
      rw [List.replicate_succ, List.cons_append, last]
      cases find T dir c with
      | error e => rfl
      | ok v =>
        simp only [List.length_nil, Nat.not_lt_zero, if_false, if_neg (Nat.not_lt.2 hd)]
        rw [last_skips hd, ih]

/-- Slashes too many lead nowhere else. -/
theorem leadsTo_gaps {start dir : Nat} {c name : Name} {rest : List (Nat × Name)} :
    LeadsTo L T start (c :: gaps rest) dir name ↔ LeadsTo L T start (c :: rest.map Prod.snd) dir name := by
  have hsame (hc : c.length ≤ L.NAME_LEN) (h : ∀ x ∈ rest.map Prod.snd, x.length ≤ L.NAME_LEN) :
      LeadsTo L T start (c :: gaps rest) dir name ↔ LeadsTo L T start (c :: rest.map Prod.snd) dir name := by
    rw [← last_iff hc, ← last_iff hc, last_gaps h]
  constructor
  · intro h
    refine (hsame (h.short c (by simp)) fun x hx => h.short x ?_).1 h
    obtain ⟨y, hy, rfl⟩ := List.mem_map.1 hx
    exact List.mem_cons_of_mem _ (List.mem_flatMap.2 ⟨y, hy, by simp⟩)
  · intro h
    exact (hsame (h.short c (by simp)) fun x hx => h.short x (List.mem_cons_of_mem _ hx)).2 h

/-- The path has these components, with a slash in front of them if it is absolute. -/
structure Spells (path : Name) (absolute : Bool) (c : Name) (rest : List (Nat × Name)) : Prop where
  path : path = (if absolute then ['/'] else []) ++ spell c rest
  proper : ∀ x ∈ c :: rest.map Prod.snd, x ≠ [] ∧ '/' ∉ x

theorem Spells.parent {path c : Name} {absolute : Bool} {rest : List (Nat × Name)} (h : Spells path absolute c rest) :
    parent L root base T path = last_from L T (if absolute then root else base) (c :: gaps rest) := by
  have hsplit := splitOn_spell fun x hx => (h.proper x hx).2
  obtain ⟨hc, hslash⟩ := h.proper c (by simp)
  obtain ⟨y, ys, rfl⟩ := List.exists_cons_of_ne_nil hc
  have hcons : ∃ zs, spell (y :: ys) rest = y :: zs := by
    cases rest with
    | nil => exact ⟨ys, rfl⟩
    | cons x rest => exact ⟨_, rfl⟩
  obtain ⟨zs, hzs⟩ := hcons
  rw [hzs] at hsplit
  rw [h.path, hzs]
  cases absolute with
  | true => simp [VmSubmit.parent, hsplit]
  | false =>
    have hy : y ≠ '/' := fun e => hslash (by simp [e])
    simp [VmSubmit.parent, hy, hsplit]

/-- The last component ends the path. -/
theorem parent_suffix {path name : Name} {dir : Nat} (h : parent L root base T path = .ok (dir, name)) : name <:+ path := by
  have hend {start : Nat} {l : Name} (h : last_from L T start (l.splitOn '/') = .ok (dir, name)) : name <:+ l := by
    have hlast := (last_from_iff.1 h).ends
    rw [List.getLast?_eq_some_getLast (List.splitOn_ne_nil '/' l), Option.some.injEq] at hlast
    rw [← hlast]
    exact splitOn_last l
  cases path with
  | nil => cases h
  | cons c cs =>
    simp only [parent] at h
    split at h
    · split at h
      · cases h
        exact List.suffix_rfl
      · exact (hend h).trans (List.suffix_cons c cs)
    · exact hend h

/-- `dir_namev` succeeds exactly when the components lead to a directory. It
returns it with one more reference, and the last component where it is in the
path; otherwise every count is as it was. -/
theorem dir_namev_resolves {path c : Name} {absolute : Bool} {rest : List (Nat × Name)} (h : Spells path absolute c rest)
    (hlen : path.length < L.MAXPATHLEN) (s : State σ) (namelen : Nat) :
    (∃ dir name d, LeadsTo L (F.tree s.fs) (if absolute then root else base) (c :: rest.map Prod.snd) dir name ∧
      dir_namev_out L F base root s path namelen = some (s.vget dir, .ok d) ∧
      d.res_vnode = dir ∧ d.namelen = name.length ∧ path.drop d.name = name) ∨
    ((∀ dir name, ¬ LeadsTo L (F.tree s.fs) (if absolute then root else base) (c :: rest.map Prod.snd) dir name) ∧
      ∃ e, dir_namev_out L F base root s path namelen = some (s, .error e)) := by
  rw [dir_namev_out_eq, dir_namev_eq s hlen]
  simp only [Option.map_some]
  have hiff {dir : Nat} {name : Name} : parent L root base (F.tree s.fs) path = .ok (dir, name) ↔
      LeadsTo L (F.tree s.fs) (if absolute then root else base) (c :: rest.map Prod.snd) dir name := by
    rw [h.parent, last_from_iff, leadsTo_gaps]
  cases hp : parent L root base (F.tree s.fs) path with
  | ok x =>
    obtain ⟨dir, name⟩ := x
    refine .inl ⟨dir, name, outArgs path (dir, name), hiff.1 hp, rfl, rfl, rfl, ?_⟩
    obtain ⟨pre, rfl⟩ := parent_suffix hp
    simp [outArgs]
  | error e =>
    refine .inr ⟨fun dir name hl => ?_, e, rfl⟩
    rw [hiff.2 hl] at hp
    cases hp

/-- `x` is missing in `/d`; the walk ends there all the same. -/
theorem missing_file_found : ∃ d, dir_namev_out stock flat 0 0 oneFile "/d//x".toList 0 = some (oneFile.vget 1, .ok d) ∧
    "/d//x".toList.drop d.name = ['x'] := by
  have hs : Spells "/d//x".toList true ['d'] [(1, ['x'])] := ⟨by decide, by decide⟩
  have hl : LeadsTo stock (flat.tree oneFile.fs) 0 [['d'], ['x']] 1 ['x'] :=
    ⟨by decide, by decide, by decide +kernel, .inr (by decide +kernel)⟩
  have hres := @dir_namev_resolves _ stock flat 0 0 _ _ _ _ hs (by decide) oneFile 0
  rcases hres with ⟨dir, name, d, h, hrun, -, -, hname⟩ | ⟨hno, -⟩
  · obtain rfl : 1 = dir := Except.ok.inj (hl.followed.symm.trans h.followed)
    obtain rfl : ['x'] = name := Option.some.inj (hl.ends.symm.trans h.ends)
    exact ⟨d, hrun, hname⟩
  · exact absurd hl (hno 1 ['x'])

/-! ## A slash at the end -/

/-- The two calls return the same code, the same directory and the same name. -/
def SameOut (p q : Name) : Option (State σ × Except Errno DirName) → Option (State σ × Except Errno DirName) → Prop
  | some (_, .ok d), some (_, .ok d') => d.res_vnode = d'.res_vnode ∧ d.namelen = d'.namelen ∧ d.text p = d'.text q
  | some (_, .error e), some (_, .error e') => e = e'
  | _, _ => False

/-- What `dir_namev` cuts a path into. -/
def components (path : Name) : List Name := (if path.head? = some '/' then path.tail else path).splitOn '/'

/-- Where it starts. -/
def startOf (root base : Nat) (path : Name) : Nat := if path.head? = some '/' then root else base

theorem parent_eq {p : Name} (hp : p ≠ []) (hroot : p ≠ ['/']) :
    parent L root base T p = last_from L T (startOf root base p) (components p) := by
  obtain ⟨c, cs, rfl⟩ := List.exists_cons_of_ne_nil hp
  by_cases hc : c = '/'
  · have hcs : cs ≠ [] := fun e => hroot (by rw [hc, e])
    simp [parent, startOf, components, hc, hcs]
  · simp [parent, startOf, components, hc]

/-- Only the path "/" has a name with a slash. -/
theorem parent_no_slash {p name : Name} {dir : Nat} (h : parent L root base T p = .ok (dir, name)) (hroot : p ≠ ['/']) :
    '/' ∉ name := by
  have hp : p ≠ [] := fun e => by
    rw [e] at h
    cases h
  rw [parent_eq hp hroot] at h
  exact splitOn_no_slash (List.mem_of_getLast? (last_from_iff.1 h).ends)

theorem components_slash {p : Name} (hp : p ≠ []) : components (p ++ ['/']) = components p ++ [[]] := by
  obtain ⟨c, cs, rfl⟩ := List.exists_cons_of_ne_nil hp
  have hsplit (l : Name) : (l ++ ['/']).splitOn '/' = l.splitOn '/' ++ [[]] := List.splitOn_append_cons_self l []
  by_cases hc : c = '/'
  · simp [components, hc, hsplit]
  · have h := hsplit (c :: cs)
    simpa [components, hc] using h

/-- The last component of a path without a slash at its end is not empty. -/
theorem splitOn_last_ne {l : Name} (hl : l ≠ []) (hslash : l.getLast? ≠ some '/') :
    (l.splitOn '/').getLast (List.splitOn_ne_nil '/' l) ≠ [] := by
  induction l with
  | nil => exact absurd rfl hl
  | cons c cs ih =>
    cases cs with
    | nil =>
      have hc : c ≠ '/' := fun e => hslash (by simp [e])
      simp [List.splitOn_cons_eq_if_modifyHead, hc]
    | cons d ds =>
      have ih := ih (List.cons_ne_nil d ds) (by rwa [List.getLast?_cons_cons] at hslash)
      obtain ⟨x, xs, hx⟩ := List.exists_cons_of_ne_nil (List.splitOn_ne_nil '/' (d :: ds))
      simp only [List.splitOn_cons_eq_if_modifyHead (x := c), hx] at ih ⊢
      split
      · rwa [List.getLast_cons (List.cons_ne_nil x xs)]
      · cases xs with
        | nil => simp
        | cons y ys => simpa using ih

theorem components_last_ne {p name : Name} (hp : p ≠ []) (hslash : p.getLast? ≠ some '/')
    (h : (components p).getLast? = some name) : name ≠ [] := by
  have hend {l : Name} (hl : l ≠ []) (hsl : l.getLast? ≠ some '/') (h : (l.splitOn '/').getLast? = some name) : name ≠ [] := by
    rw [List.getLast?_eq_some_getLast (List.splitOn_ne_nil '/' l), Option.some.injEq] at h
    rw [← h]
    exact splitOn_last_ne hl hsl
  obtain ⟨c, cs, rfl⟩ := List.exists_cons_of_ne_nil hp
  by_cases hc : c = '/'
  · cases cs with
    | nil => exact absurd (by rw [hc]; rfl) hslash
    | cons d ds =>
      simp only [components, hc, List.head?_cons, if_true, List.tail_cons] at h
      exact hend (List.cons_ne_nil d ds) (by rwa [List.getLast?_cons_cons] at hslash) h
  · simp only [components, List.head?_cons, Option.some.injEq, if_neg hc] at h
    exact hend (List.cons_ne_nil c cs) hslash h

/-- The walk goes on behind the slash, with an empty component. -/
theorem last_slash (dir : Nat) (c : Name) (rest : List Name) : last L T dir c (rest ++ [[]]) =
    match last L T dir c rest with
    | .error e => .error e
    | .ok (d, name) =>
      match find T d name with
      | .error e => .error e
      | .ok v => last L T v [] [] := by
  induction rest generalizing dir c with
  | nil =>
    simp only [List.nil_append, last, List.length_nil, Nat.not_lt_zero, if_false]
    cases hf : find T dir c with
    | ok v => simp only [hf]
    | error e => cases e <;> simp only [hf]
  | cons next rest ih =>
    simp only [List.cons_append, last]
    cases find T dir c with
    | error e => rfl
    | ok v =>
      dsimp only
      split
      · rfl
      · exact ih v next

theorem last_from_slash (start : Nat) (cs : List Name) (hcs : cs ≠ []) : last_from L T start (cs ++ [[]]) =
    match last_from L T start cs with
    | .error e => .error e
    | .ok (d, name) =>
      match find T d name with
      | .error e => .error e
      | .ok v => last L T v [] [] := by
  obtain ⟨c, rest, rfl⟩ := List.exists_cons_of_ne_nil hcs
  simp only [List.cons_append, last_from]
  split
  · rfl
  · exact last_slash start c rest

/-- Only a component before the last can be missing. -/
theorem last_missing {dir : Nat} {c : Name} {rest : List Name} (h : last L T dir c rest = .error .ENOENT) (d : Nat) :
    follow T dir (c :: rest).dropLast ≠ .ok d := by
  induction rest generalizing dir c with
  | nil =>
    simp only [last] at h
    split at h
    · cases h
    · cases h
    next e hne _ => exact absurd (Except.error.inj h) hne
  | cons next rest ih =>
    rw [List.dropLast_cons_of_ne_nil (List.cons_ne_nil _ _), follow]
    simp only [last] at h
    cases hf : find T dir c with
    | error e => simp
    | ok v =>
      rw [hf] at h
      dsimp only at h ⊢
      split at h
      · cases h
      · exact ih h

theorem last_from_missing {start : Nat} {cs : List Name} (hcs : cs ≠ []) (h : last_from L T start cs = .error .ENOENT) (d : Nat) :
    follow T start cs.dropLast ≠ .ok d := by
  obtain ⟨c, rest, rfl⟩ := List.exists_cons_of_ne_nil hcs
  simp only [last_from] at h
  split at h
  · cases h
  · exact last_missing h d

/-- With a slash behind it, a path that names a directory or nothing is walked
to another directory and name, or not to its end, unless a component before the
last is missing. -/
theorem trailing_slash_iff {p : Name} (hp : p ≠ []) (hslash : p.getLast? ≠ some '/') (hlen : p.length + 1 < L.MAXPATHLEN)
    (s : State σ) (hn : (∃ v, named L root base (F.tree s.fs) p = .ok v ∧ (F.tree s.fs).isDir v = true) ∨
      named L root base (F.tree s.fs) p = .error .ENOENT) (n n' : Nat) :
    SameOut p (p ++ ['/']) (dir_namev_out L F base root s p n) (dir_namev_out L F base root s (p ++ ['/']) n') ↔
      ∀ dir, follow (F.tree s.fs) (startOf root base p) (components p).dropLast ≠ .ok dir := by
  have hroot : p ≠ ['/'] := fun e => hslash (by rw [e]; rfl)
  have hroot' : p ++ ['/'] ≠ ['/'] := fun e => hp (by simpa using e)
  have hcs : components p ≠ [] := List.splitOn_ne_nil '/' _
  have hstart : startOf root base (p ++ ['/']) = startOf root base p := by
    obtain ⟨c, cs, rfl⟩ := List.exists_cons_of_ne_nil hp
    rfl
  rw [dir_namev_out_eq, dir_namev_out_eq, dir_namev_eq s (by omega), dir_namev_eq s (by simpa using hlen), parent_eq hp hroot,
    parent_eq (by simp) hroot', components_slash hp, hstart, last_from_slash _ _ hcs]
  cases hl : last_from L (F.tree s.fs) (startOf root base p) (components p) with
  | error e =>
    have he : e = .ENOENT := by
      simp only [named, parent_eq hp hroot, hl] at hn
      simpa using hn
    subst he
    exact iff_of_true rfl (last_from_missing hcs hl)
  | ok x =>
    obtain ⟨dir, name⟩ := x
    have hleads := last_from_iff.1 hl
    refine iff_of_false (fun h => ?_) fun h => h dir hleads.followed
    dsimp only at h
    cases hf : find (F.tree s.fs) dir name with
    | error e =>
      rw [hf] at h
      exact h
    | ok v =>
      rw [hf] at h
      dsimp only at h
      cases hv : last L (F.tree s.fs) v [] [] with
      | error e =>
        rw [hv] at h
        exact h
      | ok y =>
        rw [hv] at h
        obtain ⟨-, hlen, -⟩ := h
        obtain ⟨dir', name'⟩ := y
        have hlast' := (last_iff (Nat.zero_le _)).1 hv
        obtain rfl : [] = name' := by simpa using hlast'.ends
        exact components_last_ne hp hslash hleads.ends (List.length_eq_zero_iff.1 hlen)

/-- `/x` is missing, and `/x/y` is with and without a slash behind it. -/
theorem missing_with_slash : SameOut "/x/y".toList ("/x/y".toList ++ ['/']) (dir_namev_out stock flat 0 0 oneFile "/x/y".toList 0)
    (dir_namev_out stock flat 0 0 oneFile ("/x/y".toList ++ ['/']) 0) :=
  (@trailing_slash_iff _ stock flat 0 0 _ (by decide) (by decide) (by decide) oneFile (.inr (by decide +kernel)) 0 0).2
    fun dir h => by
      have hno : follow (flat.tree oneFile.fs) (startOf 0 0 "/x/y".toList) (components "/x/y".toList).dropLast =
        .error .ENOENT := by decide +kernel
      rw [hno] at h
      cases h

/-- `/d` is a directory, and `/d/` is walked into it. -/
theorem directory_with_slash : named stock 0 0 (flat.tree oneFile.fs) "/d".toList = .ok 1 ∧ (flat.tree oneFile.fs).isDir 1 = true ∧
    ¬ SameOut "/d".toList ("/d".toList ++ ['/']) (dir_namev_out stock flat 0 0 oneFile "/d".toList 0)
      (dir_namev_out stock flat 0 0 oneFile ("/d".toList ++ ['/']) 0) := by
  have h1 : (dir_namev stock flat 0 0 oneFile "/d".toList).map (·.2) = some (.ok (0, ['d'])) := by decide +kernel
  have h2 : (dir_namev stock flat 0 0 oneFile ("/d".toList ++ ['/'])).map (·.2) = some (.ok (1, [])) := by decide +kernel
  refine ⟨by decide +kernel, by decide, fun h => ?_⟩
  obtain ⟨⟨s₁, r₁⟩, e₁, rfl⟩ := Option.map_eq_some_iff.1 h1
  obtain ⟨⟨s₂, r₂⟩, e₂, rfl⟩ := Option.map_eq_some_iff.1 h2
  rw [dir_namev_out_eq, dir_namev_out_eq, e₁, e₂] at h
  exact absurd h.1 (by decide)

end Weenix.Vfs.VmSubmit
