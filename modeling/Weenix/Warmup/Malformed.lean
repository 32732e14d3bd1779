import Weenix.Warmup.Amounts
import Weenix.Warmup.Reading
/-!
# Malformed files

The program should end every run in its own way, and refuse every malformed line
that it comes to. It goes wrong without a line that is not blank, at white space in
front, and at a fifth field; and there are malformed lines that its checks let
through.
-/

namespace Weenix.My402Sort
open My402List

variable {now n : Nat} {buf : List Char} {bufs toks : List (List Char)}

/-! ## Lines -/

def Blank (buf : List Char) : Prop := cstr buf = ['\n']

instance : DecidablePred Blank := fun buf => inferInstanceAs (Decidable (cstr buf = ['\n']))

/-- A type, a time up to now, an amount below ten millions and a description. -/
structure GoodFields (now : Nat) (token0 token1 token2 token3 : List Char) : Prop where
  type : token0 = ['+'] ∨ token0 = ['-']
  time : token1 ≠ [] ∧ Digits token1 ∧ token1.length ≤ 10 ∧ decimal token1 ≤ now
  amount : ∃ units cents, Written token2 units cents ∧ decimal units < 10000000
  description : token3 ≠ []

/-- At most 1024 characters, with four fields between tabs. -/
def WellFormed (now : Nat) (buf : List Char) : Prop :=
  (cstr buf).length ≤ 1024 ∧ ∃ token0 token1 token2 token3,
    (removespace (cstr buf)).2.splitOn '\t' = [token0, token1, token2, token3] ∧ GoodFields now token0 token1 token2 token3

/-- The tokens that the checks of `read` let through. -/
def Passes (now : Nat) (toks : List (List Char)) : Prop :=
  ∃ token0 token1 token2 token3 units cents, toks = [token0, token1, token2, token3] ∧ Checked now token0 token1 ∧
    Written token2 units cents ∧ decimal units % 2 ^ 64 < 10000000

theorem readTokens_passes (h : ∀ tok ∈ toks, tok ≠ []) (hp : Passes now toks) : ∃ t, readTokens now toks = .ok t := by
  obtain ⟨token0, token1, token2, token3, units, cents, rfl, hchecked, hw, hlt⟩ := hp
  have h3 : token3 ≠ [] := h token3 (by simp)
  rw [readTokens_of_checked hchecked h3]
  rcases readAmount_cases token2 with ⟨units', cents', -, -, hrun⟩ | ⟨hlarge, -⟩
  · rw [hrun]
    exact ⟨_, rfl⟩
  · exact absurd (hlarge units cents hw) (not_le.2 hlt)

theorem readTokens_refuses (h : ∀ tok ∈ toks, tok ≠ []) (hp : ¬ Passes now toks) : Rejected (readTokens now toks) := by
  by_cases h4 : toks.length = 4
  · obtain ⟨token0, token1, token2, token3, rfl⟩ := List.length_eq_four.1 h4
    by_cases hchecked : Checked now token0 token1
    · have h3 : token3 ≠ [] := h token3 (by simp)
      rw [readTokens_of_checked hchecked h3]
      rcases readAmount_cases token2 with ⟨units, cents, hw, hlt, -⟩ | ⟨-, message, hrun⟩
      · exact absurd ⟨token0, token1, token2, token3, units, cents, rfl, hchecked, hw, hlt⟩ hp
      · rw [hrun]
        exact ⟨message, rfl⟩
    · exact readTokens_unchecked hchecked
  · exact readTokens_length h4

/-- What `readLine` does with a line. -/
inductive LineEnds (now : Nat) (buf : List Char) : Except Stop (Option Transaction) → Prop
  | blank (h : Blank buf) : LineEnds now buf (.ok none)
  | long (hnl : ¬ Blank buf) (hlen : 1024 < (cstr buf).length) (message : String) : LineEnds now buf (.error (.exit message))
  | indented (hnl : ¬ Blank buf) (hlen : (cstr buf).length ≤ 1024) (hf : ¬ Flush buf) : LineEnds now buf (.error (.crash .free))
  | many (hnl : ¬ Blank buf) (hlen : (cstr buf).length ≤ 1024) (h : 4 < (fieldsOf buf).length) :
      LineEnds now buf (.error (.crash .token))
  | refused (hnl : ¬ Blank buf) (hlen : (cstr buf).length ≤ 1024) (hf : Flush buf) (h4 : (fieldsOf buf).length ≤ 4)
      (hp : ¬ Passes now (fieldsOf buf)) (message : String) : LineEnds now buf (.error (.exit message))
  | accepted (hnl : ¬ Blank buf) (hlen : (cstr buf).length ≤ 1024) (hf : Flush buf) (h4 : (fieldsOf buf).length ≤ 4)
      (hp : Passes now (fieldsOf buf)) (t : Transaction) : LineEnds now buf (.ok (some t))

theorem readLine_ends (now : Nat) (buf : List Char) : LineEnds now buf (readLine now buf) := by
  by_cases hnl : Blank buf
  · have hnl' : cstr buf = ['\n'] := hnl
    rw [readLine, if_pos hnl']
    exact .blank hnl
  have hnl' : cstr buf ≠ ['\n'] := hnl
  by_cases hlen : (cstr buf).length ≤ 1024
  · by_cases hf : Flush buf
    · rw [readLine_flush hlen hf]
      by_cases h4 : (fieldsOf buf).length ≤ 4
      · rw [if_pos h4]
        by_cases hp : Passes now (fieldsOf buf)
        · obtain ⟨t, ht⟩ := readTokens_passes (fun _ h => fieldsOf_ne_nil h) hp
          rw [ht]
          exact .accepted hnl hlen hf h4 hp t
        · obtain ⟨message, hmessage⟩ := readTokens_refuses (fun _ h => fieldsOf_ne_nil h) hp
          rw [hmessage]
          exact .refused hnl hlen hf h4 hp message
      · rw [if_neg h4]
        exact .many hnl hlen (not_le.1 h4)
    · have hf' : (removespace (cstr buf)).1 ≠ 0 := hf
      rw [readLine, if_neg hnl', if_neg (not_lt.2 hlen)]
      simp only [ne_eq, hf', not_false_eq_true, if_true]
      exact .indented hnl hlen hf
  · rw [readLine, if_neg hnl', if_pos (not_le.1 hlen)]
    exact .long hnl (not_le.1 hlen) _

/-! ## Files -/

/-- The lines that `read` comes to. -/
def reached (now : Nat) : List (List Char) → List (List Char)
  | [] => []
  | buf :: bufs => buf :: if (readLine now buf).isOk then reached now bufs else []

/-- The run does not go wrong, and each malformed line that it comes to is refused with a message. -/
structure Robust (now : Nat) (ctime : Int → List Char) (malloc : Nat → Nat) (n : Nat) (mylist : Memory) (file : List Char) :
    Prop where
  safe : ∀ h, main now ctime malloc n mylist file ≠ .error (.crash h)
  refuses : ∀ buf ∈ reached now (My402Sort.bufs file), ¬ Blank buf → ¬ WellFormed now buf → Rejected (readLine now buf)

/-- No field is empty, the time is in digits and not after now, and the integer part of the amount is below ten millions. -/
structure Plain (now : Nat) (buf : List Char) : Prop where
  tabs : [] ∉ (removespace (cstr buf)).2.splitOn '\t'
  time : ∀ token1 ∈ (fieldsOf buf)[1]?, Digits token1 ∧ decimal token1 ≤ now
  amount : ∀ token2 ∈ (fieldsOf buf)[2]?, ∀ units cents, Written token2 units cents → decimal units < 10000000

theorem split_of_plain (h : [] ∉ (removespace (cstr buf)).2.splitOn '\t') :
    fieldsOf buf = (removespace (cstr buf)).2.splitOn '\t' := by
  refine List.filter_eq_self.2 fun tok htok => decide_eq_true ?_
  rintro rfl
  exact h htok

/-- What the checks let through is well formed when it is plain. -/
theorem wellFormed_iff (hlen : (cstr buf).length ≤ 1024) (hp : Passes now (fieldsOf buf)) :
    WellFormed now buf ↔ Plain now buf := by
  obtain ⟨token0, token1, token2, token3, units, cents, hfields, hchecked, hw, -⟩ := hp
  constructor
  · rintro ⟨-, token0', token1', token2', token3', hsplit, hgood⟩
    have h2 : token2' ≠ [] := by
      rintro rfl
      obtain ⟨units', cents', hw', -⟩ := hgood.amount
      simpa using hw'.text
    have h0 : token0' ≠ [] := by
      rcases hgood.type with rfl | rfl <;> decide
    have htabs : [] ∉ (removespace (cstr buf)).2.splitOn '\t' := by
      rw [hsplit]
      simp [h0, hgood.time.1, h2, hgood.description]
    rw [split_of_plain htabs, hsplit] at hfields
    cases hfields
    have hfields : fieldsOf buf = [token0, token1, token2, token3] := (split_of_plain htabs).trans hsplit
    refine ⟨htabs, fun tok htok => ?_, fun tok htok units' cents' hw' => ?_⟩
    · rw [hfields] at htok
      cases htok
      exact ⟨hgood.time.2.1, hgood.time.2.2.2⟩
    · rw [hfields] at htok
      cases htok
      obtain ⟨units'', cents'', hw'', hlt⟩ := hgood.amount
      rw [(hw'.unique hw'').1]
      exact hlt
  · intro hplain
    have htime := hplain.time token1 (by rw [hfields]; rfl)
    have hamount := hplain.amount token2 (by rw [hfields]; rfl) units cents hw
    have hne {tok : List Char} (h : tok ∈ [token0, token1, token2, token3]) : tok ≠ [] :=
      fieldsOf_ne_nil (hfields ▸ h)
    refine ⟨hlen, token0, token1, token2, token3, (split_of_plain hplain.tabs).symm.trans hfields, hchecked.type, ?_,
      ⟨units, cents, hw, hamount⟩, hne (by simp)⟩
    exact ⟨hne (by simp), htime.1, hchecked.length, htime.2⟩

/-- A line that is not blank is too long; or nothing stands in front of it, it has at most
four fields, and it is plain, and the lines after it are sound, if the checks let it through. -/
def Sound (now : Nat) : List (List Char) → Prop
  | [] => True
  | buf :: bufs =>
    (Blank buf → Sound now bufs) ∧
    (¬ Blank buf → (cstr buf).length ≤ 1024 → Flush buf ∧ (fieldsOf buf).length ≤ 4 ∧
      (Passes now (fieldsOf buf) → Plain now buf ∧ Sound now bufs))

theorem linesFrom_nil_iff : linesFrom now bufs = .ok [] ↔ ∀ buf ∈ bufs, Blank buf := by
  induction bufs with
  | nil => simp [linesFrom]
  | cons buf bufs ih =>
    have he := readLine_ends now buf
    rw [linesFrom, List.forall_mem_cons, ← ih]
    generalize readLine now buf = r at he
    cases he with
    | blank h => simp [h, bind, Except.bind]
    | long hnl | indented hnl | many hnl | refused hnl => simp [hnl, bind, Except.bind]
    | accepted hnl _ _ _ _ t =>
      simp only [hnl, false_and, iff_false, bind, Except.bind]
      cases linesFrom now bufs with
      | error e => simp
      | ok ts => simp

theorem linesFrom_accepted {t : Transaction} (h : readLine now buf = .ok (some t)) :
    linesFrom now (buf :: bufs) = (linesFrom now bufs).map (t :: ·) := by
  simp only [linesFrom, h, bind, Except.bind]
  cases linesFrom now bufs <;> rfl

theorem linesFrom_blank (h : readLine now buf = .ok none) : linesFrom now (buf :: bufs) = linesFrom now bufs := by
  simp only [linesFrom, h, bind, Except.bind]

theorem linesFrom_error {e : Stop} (h : readLine now buf = .error e) : linesFrom now (buf :: bufs) = .error e := by
  simp only [linesFrom, h, bind, Except.bind]

theorem reached_ok {r : Option Transaction} (h : readLine now buf = .ok r) :
    reached now (buf :: bufs) = buf :: reached now bufs := by
  rw [reached, h]
  rfl

theorem reached_error {e : Stop} (h : readLine now buf = .error e) : reached now (buf :: bufs) = [buf] := by
  rw [reached, h]
  rfl

/-- What is sound does not go wrong, and refuses what is malformed. -/
theorem sound_lines (h : Sound now bufs) :
    (∀ c, linesFrom now bufs ≠ .error (.crash c)) ∧
    ∀ buf ∈ reached now bufs, ¬ Blank buf → ¬ WellFormed now buf → Rejected (readLine now buf) := by
  induction bufs with
  | nil =>
    refine ⟨fun c hc => ?_, fun buf hmem => ?_⟩
    · cases hc
    · cases hmem
  | cons buf bufs ih =>
    obtain ⟨hblank, hline⟩ := h
    have he := readLine_ends now buf
    generalize hr : readLine now buf = r at he
    cases he with
    | blank hnl =>
      obtain ⟨hsafe, hrefuses⟩ := ih (hblank hnl)
      rw [linesFrom_blank hr, reached_ok hr]
      refine ⟨hsafe, fun b hmem hb => ?_⟩
      rcases List.mem_cons.1 hmem with rfl | hmem
      · exact absurd hnl hb
      · exact hrefuses b hmem hb
    | long _ _ message | refused _ _ _ _ _ message =>
      rw [linesFrom_error hr, reached_error hr]
      refine ⟨fun c hc => ?_, fun b hmem _ _ => ?_⟩
      · cases hc
      · obtain rfl := List.mem_singleton.1 hmem
        exact ⟨message, hr⟩
    | indented hnl hlen hf => exact absurd (hline hnl hlen).1 hf
    | many hnl hlen h4 => exact absurd (hline hnl hlen).2.1 (not_le.2 h4)
    | accepted hnl hlen hf h4 hp t =>
      obtain ⟨hplain, hrest⟩ := (hline hnl hlen).2.2 hp
      obtain ⟨hsafe, hrefuses⟩ := ih hrest
      rw [linesFrom_accepted hr, reached_ok hr]
      refine ⟨fun c hc => ?_, fun b hmem hb hbad => ?_⟩
      · cases hlines : linesFrom now bufs with
        | error e =>
          rw [hlines] at hc
          cases hc
          exact hsafe c hlines
        | ok ts =>
          rw [hlines] at hc
          cases hc
      · rcases List.mem_cons.1 hmem with rfl | hmem
        · exact absurd ((wellFormed_iff hlen hp).2 hplain) hbad
        · exact hrefuses b hmem hb hbad

/-- What is not sound goes wrong, or comes to a malformed line and does not refuse it. -/
theorem unsound_lines (h : ¬ Sound now bufs) :
    (∃ c, linesFrom now bufs = .error (.crash c)) ∨
    ∃ buf ∈ reached now bufs, ¬ Blank buf ∧ ¬ WellFormed now buf ∧ ¬ Rejected (readLine now buf) := by
  induction bufs with
  | nil => exact absurd trivial h
  | cons buf bufs ih =>
    have he := readLine_ends now buf
    generalize hr : readLine now buf = r at he
    cases he with
    | blank hnl =>
      have hrest : ¬ Sound now bufs := fun hs => h ⟨fun _ => hs, fun hb => absurd hnl hb⟩
      rw [linesFrom_blank hr, reached_ok hr]
      refine (ih hrest).imp id fun ⟨b, hmem, hb⟩ => ⟨b, List.mem_cons_of_mem _ hmem, hb⟩
    | long hnl hlen => exact absurd ⟨fun hb => absurd hb hnl, fun _ h' => absurd hlen (not_lt.2 h')⟩ h
    | refused hnl hlen hf h4 hp =>
      exact absurd ⟨fun hb => absurd hb hnl, fun _ _ => ⟨hf, h4, fun hp' => absurd hp' hp⟩⟩ h
    | indented | many => exact .inl ⟨_, linesFrom_error hr⟩
    | accepted hnl hlen hf h4 hp t =>
      rw [linesFrom_accepted hr, reached_ok hr]
      by_cases hwf : WellFormed now buf
      · have hplain := (wellFormed_iff hlen hp).1 hwf
        have hrest : ¬ Sound now bufs := fun hs =>
          h ⟨fun hb => absurd hb hnl, fun _ _ => ⟨hf, h4, fun _ => ⟨hplain, hs⟩⟩⟩
        rcases ih hrest with ⟨c, hc⟩ | ⟨b, hmem, hb⟩
        · rw [hc]
          exact .inl ⟨c, rfl⟩
        · exact .inr ⟨b, List.mem_cons_of_mem _ hmem, hb⟩
      · refine .inr ⟨buf, List.mem_cons_self, hnl, hwf, fun ⟨message, hrej⟩ => ?_⟩
        rw [hr] at hrej
        cases hrej

/-- The program handles exactly the files with a line that is not blank, and with lines that are sound. -/
theorem robust_iff {ctime : Int → List Char} {malloc : Nat → Nat} {mylist : Memory} {file : List Char}
    (ha : mylist.live mylist.anchor = true) (h0 : mylist.live NULL = false)
    (hm : Allocates malloc mylist (My402Sort.bufs file).length) (hn : (My402Sort.bufs file).length < n) :
    Robust now ctime malloc n mylist file ↔
      (∃ buf ∈ My402Sort.bufs file, ¬ Blank buf) ∧ Sound now (My402Sort.bufs file) := by
  have hends := main_ends now ctime ha h0 hm hn
  constructor
  · rintro ⟨hsafe, hrefuses⟩
    generalize hlines : linesFrom now (My402Sort.bufs file) = r at hends
    generalize hmain : main now ctime malloc n mylist file = w at hends hsafe
    constructor
    · by_contra hall
      rw [linesFrom_nil_iff.2 fun buf hbuf => not_not.1 fun hb => hall ⟨buf, hbuf, hb⟩] at hlines
      subst hlines
      cases hends with
      | empty => exact hsafe _ rfl
      | duplicate _ hne | printed _ _ hne => exact hne rfl
    · by_contra hs
      rcases unsound_lines hs with ⟨c, hc⟩ | ⟨buf, hmem, hb, hbad, hrej⟩
      · rw [hc] at hlines
        subst hlines
        cases hends
        exact hsafe _ rfl
      · exact hrej (hrefuses buf hmem hb hbad)
  · rintro ⟨⟨buf, hbuf, hb⟩, hs⟩
    obtain ⟨hsafe, hrefuses⟩ := sound_lines hs
    refine ⟨fun c hc => ?_, hrefuses⟩
    rw [hc] at hends
    generalize hlines : linesFrom now (My402Sort.bufs file) = r at hends
    cases hends with
    | stopped => exact hsafe c hlines
    | empty => exact hb (linesFrom_nil_iff.1 hlines buf hbuf)

/-- The program on a file, at time 10, with the elements at 2, 3, .. -/
def RobustOn (file : String) : Prop := Robust 10 (fun _ => []) (fun k => k + 2) 10 noElems file.toList

theorem noElems_allocates (N : Nat) : Allocates (fun k => k + 2) noElems N where
  fresh k _ := by simp [noElems, NULL]
  once j _ k _ h := by simpa using h

theorem two_lines_robust : RobustOn "\n+\t5\t12.34\tx\n" := by
  have hbufs : bufs "\n+\t5\t12.34\tx\n".toList = [['\n'], "+\t5\t12.34\tx\n".toList] := by decide +kernel
  have hn : (bufs "\n+\t5\t12.34\tx\n".toList).length < 10 := by
    rw [hbufs]
    decide
  refine (robust_iff rfl rfl (noElems_allocates _) hn).2 ?_
  rw [hbufs]
  refine ⟨⟨"+\t5\t12.34\tx\n".toList, by simp, by decide⟩, fun _ => ⟨fun h => absurd h (by decide), fun _ _ => ?_⟩,
    fun h => absurd rfl h⟩
  have hfields : fieldsOf "+\t5\t12.34\tx\n".toList = [['+'], ['5'], "12.34".toList, ['x']] := by decide
  have hw : Written "12.34".toList ['1', '2'] ['3', '4'] := ⟨by decide, by decide, by decide, by decide⟩
  refine ⟨by decide, by decide, fun _ => ⟨⟨by decide, fun tok htok => ?_, fun tok htok units cents hw' => ?_⟩, trivial⟩⟩
  · rw [hfields] at htok
    cases htok
    decide
  · rw [hfields] at htok
    cases htok
    rw [(hw'.unique hw).1]
    decide

/-- No line; a blank in front; a fifth field; and a time that is no number, which is accepted. -/
theorem four_files_not_robust :
    ¬ RobustOn "" ∧ ¬ RobustOn " +\t5\t12.34\tx\n" ∧ ¬ RobustOn "+\t5\t12.34\tx\ty\n" ∧ ¬ RobustOn "+\tabc\t12.34\tx\n" := by
  refine ⟨fun h => h.safe .elem (by decide), fun h => h.safe .free (by decide +kernel),
    fun h => h.safe .token (by decide +kernel), fun h => ?_⟩
  have hbufs : bufs "+\tabc\t12.34\tx\n".toList = ["+\tabc\t12.34\tx\n".toList] := by decide +kernel
  have hread : readLine 10 "+\tabc\t12.34\tx\n".toList = .ok (some ⟨'+', 0, 1234, ['x']⟩) := by decide +kernel
  have hbad : ¬ WellFormed 10 "+\tabc\t12.34\tx\n".toList := by
    rintro ⟨-, token0, token1, token2, token3, hsplit, hgood⟩
    have hfields : (removespace (cstr "+\tabc\t12.34\tx\n".toList)).2.splitOn '\t' =
        [['+'], ['a', 'b', 'c'], "12.34".toList, ['x']] := by
      decide +kernel
    have htime := hgood.time.2.1
    rw [hfields] at hsplit
    cases hsplit
    revert htime
    decide
  have hreached : "+\tabc\t12.34\tx\n".toList ∈ reached 10 (bufs "+\tabc\t12.34\tx\n".toList) := by
    rw [hbufs]
    exact List.mem_cons_self
  obtain ⟨message, hrej⟩ := h.refuses _ hreached (by decide) hbad
  cases hread.symm.trans hrej

end Weenix.My402Sort
