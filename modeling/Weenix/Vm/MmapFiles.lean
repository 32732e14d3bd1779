import Weenix.Vm.FileMap
import Weenix.Vm.Mappings
/-!
# The open file behind a mapping (`vm/mmap.c`)

`do_mmap` takes a reference to the file with `fget` and gives it back with
`fput`, before it returns an error and after the file is mapped. It does not
where the file is refused for its size.
-/

namespace Weenix.Vm

variable {C : Config} {s s' t : State} {p addr len off : Nat} {pr : Proc} {prot : Prot} {flags : MapFlags} {fd : Int}
  {r : Except Errno Nat}

/-- The `file_t` behind `fd`. -/
def fileBehind (pr : Proc) (fd : Int) : Option Nat := if fd < 0 then none else pr.p_files fd.toNat

def refcountOf (s : State) (f : Nat) : Option Nat := (s.files f).map File.f_refcount

/-- `fget` has taken a reference to `f`. -/
def State.gotten (s : State) (f : Nat) (fl : File) : State :=
  s.setFiles (Function.update s.files f (some { fl with f_refcount := fl.f_refcount + 1 }))

/-- `fget` is called, and finds the file `f`. -/
structure Asked (C : Config) (s : State) (pr : Proc) (flags : MapFlags) (fd : Int) (f : Nat) (fl : File) : Prop where
  known : fd ≤ C.MAX_FILES
  anon : flags.anon = false
  behind : fileBehind pr fd = some f
  live : s.files f = some fl

/-- The file is refused for its size. -/
def TooBig (C : Config) (len off : Nat) : Prop := C.NFILES < ADDR_TO_PN len + ADDR_TO_PN off

/-- What `do_mmap` does with the file, and what it goes on with. -/
inductive FileEffect (C : Config) (s : State) (pr : Proc) (len : Nat) (flags : MapFlags) (fd : Int) (off : Nat) :
    State → Except Errno (Option (Nat × Nat)) → Prop
  | unasked {x : Except Errno (Option (Nat × Nat))} : (∀ f fl, ¬ Asked C s pr flags fd f fl) → (∀ y, x ≠ .ok (some y)) →
      FileEffect C s pr len flags fd off s x
  | tooBig {f : Nat} {fl : File} : Asked C s pr flags fd f fl → TooBig C len off →
      FileEffect C s pr len flags fd off (s.gotten f fl) (.error .EOVERFLOW)
  | refused {f : Nat} {fl : File} {e : Errno} : Asked C s pr flags fd f fl → ¬ TooBig C len off →
      FileEffect C s pr len flags fd off (fput (s.gotten f fl) f) (.error e)
  | got {f : Nat} {fl : File} {vn : Nat} : Asked C s pr flags fd f fl → ¬ TooBig C len off →
      FileEffect C s pr len flags fd off (s.gotten f fl) (.ok (some (f, vn)))

variable {f : Nat} {fl : File}

/-- Only a file that is too big is not put. -/
theorem checkFile_release {e : Errno} {release : Bool} (h : checkFile C s fl len off prot flags = some (release, e)) :
    (TooBig C len off ∧ release = false ∧ e = .EOVERFLOW) ∨ (¬ TooBig C len off ∧ release = true) := by
  unfold checkFile at h
  split at h
  next hbig =>
    cases h
    exact .inl ⟨hbig, rfl, rfl⟩
  next hbig =>
    refine .inr ⟨hbig, ?_⟩
    iterate 5
      split at h
      · cases h
        rfl
    cases h

theorem checkFile_fits (h : checkFile C s fl len off prot flags = none) : ¬ TooBig C len off := by
  intro hbig
  unfold TooBig at hbig
  rw [checkFile, if_pos hbig] at h
  cases h

theorem mmapFile_effect {x : Except Errno (Option (Nat × Nat))} (h : mmapFile C s pr len prot flags fd off = (t, x)) :
    FileEffect C s pr len flags fd off t x := by
  unfold mmapFile at h
  split at h
  next hfd =>
    have hno (f : Nat) (fl : File) : ¬ Asked C s pr flags fd f fl := by
      rintro ⟨hknown, -, hbehind, -⟩
      rcases hfd with hfd | hfd
      · omega
      · simp [fileBehind, hfd] at hbehind
    split at h
    · cases h
      exact .unasked hno (by simp)
    · cases h
      exact .unasked hno (by simp)
  next hfd =>
    split at h
    next hanon =>
      cases h
      refine .unasked (fun f fl hask => ?_) (by simp)
      rw [hask.anon] at hanon
      cases hanon
    next hanon =>
      have hbehind : fileBehind pr fd = pr.p_files fd.toNat := if_neg (by omega)
      unfold fget at h
      cases hp : pr.p_files fd.toNat with
      | none =>
        simp only [hp] at h
        cases h
        refine .unasked (fun f fl hask => ?_) (by simp)
        have := hask.behind
        rw [hbehind, hp] at this
        cases this
      | some f =>
        simp only [hp] at h
        cases hf : s.files f with
        | none =>
          simp only [hf] at h
          cases h
          refine .unasked (fun g fl hask => ?_) (by simp)
          have := hask.behind
          rw [hbehind, hp] at this
          cases this
          rw [hask.live] at hf
          cases hf
        | some fl =>
          have hask : Asked C s pr flags fd f fl := ⟨by omega, by simpa using hanon, hbehind.trans hp, hf⟩
          simp only [hf] at h
          cases hc : checkFile C (s.gotten f fl) fl len off prot flags with
          | none =>
            have hfits := checkFile_fits hc
            unfold State.gotten at hc
            simp only [hc] at h
            cases h
            exact .got hask hfits
          | some x =>
            obtain ⟨release, e⟩ := x
            have hrel := checkFile_release hc
            unfold State.gotten at hc
            simp only [hc] at h
            rcases hrel with ⟨hbig, rfl, rfl⟩ | ⟨hfits, rfl⟩
            · cases h
              exact .tooBig hask hbig
            · cases h
              exact .refused hask hfits

/-- What `fget` took, `fput` gives back. -/
theorem fput_gotten (hf : s.files f = some fl) (h0 : 0 < fl.f_refcount) (ht : t.files = (s.gotten f fl).files) :
    (fput t f).files = s.files := by
  have hget : t.files f = some { fl with f_refcount := fl.f_refcount + 1 } := by
    rw [ht]
    exact Function.update_self ..
  have hlast : ¬ fl.f_refcount + 1 ≤ 1 := by omega
  unfold fput
  simp only [hget, hlast, if_false, Nat.add_sub_cancel]
  funext g
  show Function.update t.files f (some fl) g = s.files g
  by_cases e : g = f
  · rw [e, Function.update_self, hf]
  · rw [Function.update_of_ne e, ht]
    exact Function.update_of_ne e ..

theorem vmmap_map_files {m lopage npages : Nat} {file : Option Nat} {dir : Dir} (hL : Layout C s) (hn : npages ≤ 2 ^ 20)
    (h : vmmap_map C s p m file lopage npages prot flags off dir = some (t, r)) : t.files = s.files := by
  obtain ⟨-, heff⟩ := vmmap_map_effect hL hn h
  obtain ⟨l, n, hsp⟩ := heff.spaces hL
  exact (congrArg Spaces.files hsp :)

/-! ## The whole call -/

/-- The call comes to the size of an open file, and the file is refused for it. -/
structure ForSize (C : Config) (s : State) (pr : Proc) (addr len : Nat) (flags : MapFlags) (fd : Int) (off : Nat) : Prop where
  aligned : PAGE_ALIGNED off = true
  known : flags.other = false
  pages : roundLen len ≠ 0
  kind : flags.shared ≠ flags.priv
  place : ∃ place, mmapAddr C (s.vmm_list pr.p_vmmap) addr (roundLen len) flags = some (.ok place)
  asked : ∃ f fl, Asked C s pr flags fd f fl
  big : TooBig C (roundLen len) off

/-- Every return leaves the count of the file behind `fd` as it was. -/
def ReleasesFile (C : Config) (s : State) (p : Nat) (pr : Proc) (addr len : Nat) (prot : Prot) (flags : MapFlags) (fd : Int)
    (off : Nat) : Prop :=
  ∀ s' r, do_mmap C s p addr len prot flags fd off = some (s', r) → ∀ f, fileBehind pr fd = some f → refcountOf s' f = refcountOf s f

/-- A call that returns has left the files alone, or has kept its reference to one that is too big. -/
theorem do_mmap_files (hL : Layout C s) (hpr : s.procs p = some pr) (hlen : len < 2 ^ 32)
    (hlive : ∀ f fl, fileBehind pr fd = some f → s.files f = some fl → 0 < fl.f_refcount) {s' : State}
    (h : do_mmap C s p addr len prot flags fd off = some (s', r)) :
    s'.files = s.files ∨ ForSize C s pr addr len flags fd off := by
  simp only [do_mmap, hpr, bind, Option.bind_some] at h
  split at h
  · cases h
    exact .inl rfl
  next haligned =>
    split at h
    · cases h
      exact .inl rfl
    next hknown =>
      split at h
      · cases h
        exact .inl rfl
      next hpages =>
        split at h
        · cases h
          exact .inl rfl
        next hkind =>
          simp only [Option.bind_eq_some_iff] at h
          obtain ⟨ra, hplace, h⟩ := h
          split at h
          · cases h
            exact .inl rfl
          next place =>
            split at h
            next t e hfile =>
              cases h
              cases mmapFile_effect hfile with
              | unasked => exact .inl rfl
              | tooBig hask hbig =>
                exact .inr ⟨by simpa using haligned, by simpa using hknown, hpages, hkind, ⟨place, hplace⟩, ⟨_, _, hask⟩, hbig⟩
              | refused hask => exact .inl (fput_gotten hask.live (hlive _ _ hask.behind hask.live) rfl)
            next t file hfile =>
              obtain ⟨⟨fs, hfs⟩, -⟩ := mmapFile_cases hfile
              have hLt : Layout C t := hfs ▸ hL.setFiles
              simp only [Option.bind_eq_some_iff, Prod.exists] at h
              obtain ⟨t', r', hmap, h⟩ := h
              have hfiles := vmmap_map_files hLt (roundLen_pages hlen) hmap
              split at h
              · cases h
              · cases h
                cases mmapFile_effect hfile with
                | unasked _ hnone =>
                  cases file with
                  | none => exact .inl hfiles
                  | some y => exact absurd rfl (hnone y)
                | got hask => exact .inl (fput_gotten hask.live (hlive _ _ hask.behind hask.live) hfiles)

theorem ForSize.leaks (prot : Prot) (h : ForSize C s pr addr len flags fd off) (hpr : s.procs p = some pr) :
    ∃ f fl, Asked C s pr flags fd f fl ∧
      do_mmap C s p addr len prot flags fd off = some (s.gotten f fl, .error .EOVERFLOW) := by
  obtain ⟨haligned, hknown, hpages, hkind, ⟨place, hplace⟩, ⟨f, fl, hask⟩, hbig⟩ := h
  refine ⟨f, fl, hask, ?_⟩
  have hfile : mmapFile C s pr (roundLen len) prot flags fd off = (s.gotten f fl, .error .EOVERFLOW) := by
    cases hx : mmapFile C s pr (roundLen len) prot flags fd off with
    | mk t x =>
      cases mmapFile_effect hx with
      | unasked hno => exact absurd hask (hno f fl)
      | @tooBig g gl hask' =>
        have hg := hask'.behind
        rw [hask.behind] at hg
        cases hg
        have hl := hask'.live
        rw [hask.live] at hl
        cases hl
        rfl
      | refused _ hfits => exact absurd hbig hfits
      | got _ hfits => exact absurd hbig hfits
  simp only [do_mmap, hpr, bind, Option.bind_some, haligned, hknown, hpages, hkind, hplace, hfile, Bool.not_true, Bool.false_eq_true,
    if_false]

/-- `do_mmap` releases the file exactly when it is not refused for its size. -/
theorem do_mmap_releases_iff (hL : Layout C s) (hpr : s.procs p = some pr) (hlen : len < 2 ^ 32)
    (hlive : ∀ f fl, fileBehind pr fd = some f → s.files f = some fl → 0 < fl.f_refcount) :
    ReleasesFile C s p pr addr len prot flags fd off ↔ ¬ ForSize C s pr addr len flags fd off := by
  constructor
  · intro hrel hsize
    obtain ⟨f, fl, hask, hrun⟩ := hsize.leaks prot hpr
    have := hrel _ _ hrun f hask.behind
    have hself : (s.gotten f fl).files f = some { fl with f_refcount := fl.f_refcount + 1 } := Function.update_self ..
    simp [refcountOf, hself, hask.live] at this
  · intro hsize s' r hrun f _
    rw [refcountOf, (do_mmap_files hL hpr hlen hlive hrun).resolve_right hsize]
    rfl

/-- The first process has the file open. -/
def oneReader : State := openFile (proc_create oneFile) 0 ⟨0, 0, fun _ => none⟩ 3 0 { read := true } 0

def reader : Proc := ⟨0, 0, Function.update (fun _ => none) 3 (some 0)⟩

theorem oneReader_layout : Layout .stock oneReader := by
  obtain ⟨hL, hO⟩ := oneFile_booted.placed (C := .stock)
  exact (openFile_placed ⟨proc_create_layout hL, proc_create_owned hO⟩ rfl).layout

/-- It maps 33 pages, one more than `NFILES`: the file has a reference too many. -/
theorem big_map_leaks : (∃ s', do_mmap .stock oneReader 0 0 0x21000 { read := true } { priv := true } 3 0 =
      some (s', .error .EOVERFLOW) ∧ refcountOf oneReader 0 = some 1 ∧ refcountOf s' 0 = some 2) ∧
    ¬ ReleasesFile .stock oneReader 0 reader 0 0x21000 { read := true } { priv := true } 3 0 := by
  have hex : (do_mmap .stock oneReader 0 0 0x21000 { read := true } { priv := true } 3 0).map
      (fun x => (sysret x.2, refcountOf x.1 0)) = some (.error .EOVERFLOW, some 2) := by decide +kernel
  obtain ⟨⟨s', r⟩, hrun, hr⟩ := Option.map_eq_some_iff.1 hex
  obtain ⟨hret, hcount⟩ := Prod.mk.inj hr
  cases r with
  | ok n => cases hret
  | error e =>
    cases hret
    refine ⟨⟨s', hrun, rfl, hcount⟩, fun hrel => ?_⟩
    have := hrel s' _ hrun 0 rfl
    rw [hcount] at this
    exact absurd this (by decide)

/-- It maps two pages. -/
theorem small_map_releases : ReleasesFile .stock oneReader 0 reader 0 0x2000 { read := true } { priv := true } 3 0 := by
  refine (do_mmap_releases_iff oneReader_layout rfl (by decide) fun f fl hf hfl => ?_).2 fun hsize => ?_
  · cases hf
    cases hfl
    exact Nat.one_pos
  · have hbig : 32 < 2 := hsize.big
    omega

end Weenix.Vm
