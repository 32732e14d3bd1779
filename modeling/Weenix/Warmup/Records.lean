import Weenix.Warmup.Decimals
import Weenix.Warmup.Malformed
import Mathlib.Data.List.Flatten
/-!
# Records (`read`)

A transaction is written on a line, with a tab between its fields. `read` gives
back what has been written, record after record.
-/

namespace Weenix.My402Sort
open My402List

/-- The type, the time, the amount and the description, as text. -/
def fields (t : Transaction) : List (List Char) :=
  [[t.type], Nat.toDigits 10 t.time.toNat, Nat.toDigits 10 (t.amount / 100) ++ '.' :: lowDigits 2 t.amount, t.description]

def line (t : Transaction) : List Char := ['\t'].intercalate (fields t) ++ ['\n']

/-- A transaction that can be written on a line, up to the time `now`. -/
structure Record (now : Nat) extends Transaction where
  type_sign : type = '+' ∨ type = '-'
  time_range : 0 ≤ time ∧ time ≤ now ∧ time < 10 ^ 10
  amount_lt : amount < 10 ^ 9
  nonempty : description ≠ []
  plain : '\t' ∉ description ∧ '\n' ∉ description
  /-- A string ends at its first `NUL`. -/
  string : cstr description = description
  trimmed : ∀ c, description.head? = some c ∨ description.getLast? = some c → isspace c = false
  short : (line toTransaction).length ≤ 1024

variable {now n N : Nat} {str rest body : List Char} {c : Char} {r : Record now}

/-! ## Numbers -/

theorem digitOf_digit (h : isdigit c = true) : digitOf c = atoi c := by
  rw [digitOf, if_pos h, atoi]

theorem digit_not_space (h : isdigit c = true) : isspace c = false := by
  have hrange := digit_range h
  have hblank : c ≠ ' ' := by
    rintro rfl
    revert h
    decide
  simp only [isspace, beq_eq_false_iff_ne.2 hblank, Bool.false_or, Bool.and_eq_false_iff, decide_eq_false_iff_not]
  omega

theorem signOf_digit (h : isdigit c = true) : signOf (c :: rest) = (false, c :: rest) := by
  have hminus : c ≠ '-' := by
    rintro rfl
    revert h
    decide
  have hplus : c ≠ '+' := by
    rintro rfl
    revert h
    decide
  rw [signOf, if_neg hminus, if_neg hplus]

theorem foldl_digitOf (h : Digits str) (n : Nat) : str.foldl (fun n c => n * 10 + digitOf c) n = decimalFrom n str := by
  induction str generalizing n with
  | nil => rfl
  | cons c str ih =>
    rw [List.foldl_cons, digitOf_digit (h c List.mem_cons_self), decimalFrom_cons]
    exact ih (fun d hd => h d (List.mem_cons_of_mem _ hd)) _

/-- Digits that do not begin with 0 are read in base 10. -/
theorem strtoul_decimal (h : Digits (c :: str)) (h0 : c ≠ '0') (hlt : decimal (c :: str) < 2 ^ 64) :
    strtoul (c :: str) = decimal (c :: str) := by
  have hc := h c List.mem_cons_self
  have hdrop : (c :: str).dropWhile isspace = c :: str := by
    rw [List.dropWhile_cons_of_neg (by simp [digit_not_space hc])]
  have hbase : baseOf (c :: str) = (10, c :: str) := if_pos h0
  have htake : (c :: str).takeWhile (fun d => decide (digitOf d < 10)) = c :: str := by
    rw [List.takeWhile_eq_self_iff]
    intro d hd
    have hrange := digit_range (h d hd)
    rw [decide_eq_true_eq, digitOf_digit (h d hd), atoi]
    omega
  have hvalue : decimalFrom 0 (c :: str) < 2 ^ 64 := hlt
  simp only [strtoul, hdrop, signOf_digit hc, hbase, htake, foldl_digitOf h, if_neg (not_le.2 hvalue)]
  rfl

/-- A number that is written without leading zeros is read as it is. -/
theorem strtoul_toDigits (h : n < 2 ^ 64) : strtoul (Nat.toDigits 10 n) = n := by
  rcases Nat.eq_zero_or_pos n with rfl | hpos
  · decide
  · obtain ⟨c, str, hstr, hc⟩ := toDigits_head hpos
    have hdigits := toDigits_digits n
    have hvalue := toDigits_decimal n
    rw [hstr] at hdigits hvalue ⊢
    rw [strtoul_decimal hdigits hc (by omega), hvalue]

theorem readAmount_written {units cents : List Char} (h : Written str units cents) (hlt : decimal units < 10000000) :
    readAmount str = .ok (decimal units * 100 + decimal cents) := by
  have hmod : decimal units % 2 ^ 64 = decimal units := Nat.mod_eq_of_lt (by omega)
  rcases readAmount_cases str with ⟨units', cents', h', -, hrun⟩ | ⟨hlarge, -⟩
  · obtain ⟨rfl, rfl⟩ := h.unique h'
    rw [hrun, hmod]
  · have := hlarge units cents h
    omega

/-! ## Lines -/

theorem fgets_line (h : '\n' ∉ body) (hlen : body.length < n) : fgets n (body ++ '\n' :: rest) = (body ++ ['\n'], rest) := by
  induction body generalizing n with
  | nil =>
    obtain ⟨n, rfl⟩ : ∃ k, n = k + 1 := ⟨n - 1, by simp at hlen; omega⟩
    rfl
  | cons c body ih =>
    obtain ⟨n, rfl⟩ : ∃ k, n = k + 1 := ⟨n - 1, by simp at hlen; omega⟩
    rw [List.mem_cons, not_or] at h
    rw [List.cons_append, fgets, if_neg (Ne.symm h.1), ih h.2 (by simpa using hlen)]
    rfl

/-- A line that fits into the buffer, with its end. -/
def Fits (l : List Char) : Prop := ∃ body, l = body ++ ['\n'] ∧ '\n' ∉ body ∧ body.length < 1025

theorem bufsFrom_lines {lines : List (List Char)} (h : ∀ l ∈ lines, Fits l) (hn : lines.flatten.length ≤ n) :
    bufsFrom n lines.flatten = lines := by
  induction lines generalizing n with
  | nil => cases n <;> rfl
  | cons l lines ih =>
    obtain ⟨body, rfl, hbody, hlen⟩ := h l List.mem_cons_self
    have hfile : (body ++ ['\n']) ++ lines.flatten = body ++ '\n' :: lines.flatten := by simp
    rw [List.flatten_cons, hfile] at hn ⊢
    rw [List.length_append, List.length_cons] at hn
    obtain ⟨n, rfl⟩ : ∃ k, n = k + 1 := ⟨n - 1, by omega⟩
    have hcons (file : List Char) (hne : file ≠ []) : bufsFrom (n + 1) file =
        (fgets 1025 file).1 :: bufsFrom n (fgets 1025 file).2 := by
      cases file with
      | nil => exact absurd rfl hne
      | cons c file => rfl
    rw [hcons _ (by simp), fgets_line hbody hlen, ih (fun l hl => h l (List.mem_cons_of_mem _ hl)) (by omega)]

/-- The characters of the fields. -/
def InField (c : Char) : Prop := c ≠ '\t' ∧ c ≠ '\n' ∧ c.toNat ≠ 0

theorem inField_digit (h : isdigit c = true) : InField c := by
  have hrange := digit_range h
  refine ⟨?_, ?_, by omega⟩
  · rintro rfl
    revert h
    decide
  · rintro rfl
    revert h
    decide

theorem Record.fields_inField (r : Record now) : ∀ tok ∈ fields r.toTransaction, ∀ c ∈ tok, InField c := by
  have hstring : ∀ c ∈ r.description, c.toNat ≠ 0 := by
    have hall := List.takeWhile_eq_self_iff.1 r.string
    exact fun c hc => by simpa using hall c hc
  simp only [fields, List.forall_mem_cons, List.not_mem_nil, false_imp_iff, implies_true, and_true, List.forall_mem_append]
  refine ⟨?_, fun c hc => inField_digit (toDigits_digits _ c hc), ⟨fun c hc => inField_digit (toDigits_digits _ c hc), ?_, ?_⟩, ?_⟩
  · rcases r.type_sign with h | h <;> rw [h] <;> exact ⟨by decide, by decide, by decide⟩
  · exact ⟨by decide, by decide, by decide⟩
  · exact fun c hc => inField_digit (lowDigits_digits 2 _ c hc)
  · exact fun c hc => ⟨fun h => r.plain.1 (h ▸ hc), fun h => r.plain.2 (h ▸ hc), hstring c hc⟩

theorem mem_intercalate {toks : List (List Char)} (h : c ∈ ['\t'].intercalate toks) :
    c = '\t' ∨ ∃ tok ∈ toks, c ∈ tok := by
  induction toks with
  | nil => cases h
  | cons tok toks ih =>
    cases toks with
    | nil =>
      rw [List.intercalate_singleton] at h
      exact .inr ⟨tok, List.mem_cons_self, h⟩
    | cons tok' toks =>
      rw [List.intercalate_cons_cons] at h
      rcases List.mem_append.1 h with h | h
      · rcases List.mem_append.1 h with h | h
        · exact .inr ⟨tok, List.mem_cons_self, h⟩
        · exact .inl (List.mem_singleton.1 h)
      · refine (ih h).imp_right ?_
        rintro ⟨x, hx, hc⟩
        exact ⟨x, List.mem_cons_of_mem _ hx, hc⟩

namespace Record

theorem body_char (r : Record now) (h : c ∈ ['\t'].intercalate (fields r.toTransaction)) : c ≠ '\n' ∧ c.toNat ≠ 0 := by
  rcases mem_intercalate h with rfl | ⟨tok, htok, hc⟩
  · exact ⟨by decide, by decide⟩
  · exact (r.fields_inField tok htok c hc).2

theorem fits (r : Record now) : Fits (line r.toTransaction) := by
  refine ⟨_, rfl, fun h => (r.body_char h).1 rfl, ?_⟩
  have hshort := r.short
  rw [line, List.length_append, List.length_singleton] at hshort
  omega

theorem line_cstr (r : Record now) : cstr (line r.toTransaction) = line r.toTransaction := by
  refine List.takeWhile_eq_self_iff.2 fun c hc => ?_
  rw [decide_eq_true_eq]
  rcases List.mem_append.1 hc with hc | hc
  · exact (r.body_char hc).2
  · rw [List.mem_singleton.1 hc]
    decide

/-- Without its end: the description is last. -/
theorem body_eq (r : Record now) : ∃ front, ['\t'].intercalate (fields r.toTransaction) = r.type :: front ++ r.description := by
  refine ⟨'\t' :: (Nat.toDigits 10 r.time.toNat ++ '\t' :: (Nat.toDigits 10 (r.amount / 100) ++ '.' :: lowDigits 2 r.amount ++
    ['\t'])), ?_⟩
  simp [fields]

/-- Only the end of the line is removed. -/
theorem line_removespace (r : Record now) :
    removespace (cstr (line r.toTransaction)) = (0, ['\t'].intercalate (fields r.toTransaction)) := by
  obtain ⟨front, hbody⟩ := r.body_eq
  have htype : isspace r.type = false := by
    rcases r.type_sign with h | h <;> rw [h] <;> decide
  have hdrop : (line r.toTransaction).dropWhile isspace = line r.toTransaction := by
    rw [line, hbody, List.cons_append, List.cons_append, List.dropWhile_cons_of_neg (by simp [htype])]
  have hlast : (['\t'].intercalate (fields r.toTransaction)).rdropWhile isspace =
      ['\t'].intercalate (fields r.toTransaction) := by
    rw [List.rdropWhile_eq_self_iff]
    intro hne
    have hdesc := r.trimmed _ (.inr (List.getLast?_eq_some_getLast r.nonempty))
    simp only [hbody, List.getLast_append_of_ne_nil _ r.nonempty, hdesc]
    decide
  have hend : isspace '\n' = true := by decide
  rw [removespace, r.line_cstr, hdrop, Nat.sub_self, line, List.rdropWhile_concat_pos _ _ _ hend, hlast]

theorem fields_ne_nil (r : Record now) : ∀ tok ∈ fields r.toTransaction, tok ≠ [] := by
  simp only [fields, List.forall_mem_cons, List.not_mem_nil, false_imp_iff, implies_true, and_true]
  exact ⟨List.cons_ne_nil _ _, Nat.toDigits_ne_nil, by simp, r.nonempty⟩

theorem line_fields (r : Record now) : fieldsOf (line r.toTransaction) = fields r.toTransaction := by
  have htab : ∀ tok ∈ fields r.toTransaction, '\t' ∉ tok := fun tok htok h => (r.fields_inField tok htok _ h).1 rfl
  rw [fieldsOf, r.line_removespace, strtok, List.splitOn_intercalate _ htab (List.cons_ne_nil _ _), List.filter_eq_self]
  intro tok htok
  simpa using r.fields_ne_nil tok htok

theorem checked (r : Record now) : Checked now [r.type] (Nat.toDigits 10 r.time.toNat) := by
  have hrange := r.time_range
  refine ⟨?_, ?_, ?_⟩
  · rcases r.type_sign with h | h
    · exact .inl (by rw [h])
    · exact .inr (by rw [h])
  · rw [Nat.length_toDigits_le_iff (by decide) (by decide)]
    omega
  · rw [strtoul_toDigits (by omega)]
    omega

theorem written (r : Record now) : Written (Nat.toDigits 10 (r.amount / 100) ++ '.' :: lowDigits 2 r.amount)
    (Nat.toDigits 10 (r.amount / 100)) (lowDigits 2 r.amount) :=
  ⟨rfl, toDigits_digits _, lowDigits_digits 2 _, lowDigits_length 2 _⟩

theorem read_amount (r : Record now) :
    readAmount (Nat.toDigits 10 (r.amount / 100) ++ '.' :: lowDigits 2 r.amount) = .ok r.amount := by
  have hlt := r.amount_lt
  rw [readAmount_written r.written (by rw [toDigits_decimal]; omega), toDigits_decimal, lowDigits_decimal]
  exact congrArg Except.ok (by omega)

theorem transOfTokens_eq (r : Record now) :
    transOfTokens [r.type] (Nat.toDigits 10 r.time.toNat) r.amount r.description = r.toTransaction := by
  have hrange := r.time_range
  have htype : (if [r.type] = ['+'] then '+' else '-') = r.type := by
    rcases r.type_sign with h | h <;> rw [h] <;> rfl
  have htime : ((r.time.toNat : Nat) : Int).bmod (2 ^ 64) = r.time := by
    rw [Int.bmod_eq_of_le (by omega) (by omega)]
    omega
  rw [transOfTokens, htype, strtoul_toDigits (by omega), htime]

/-- The line of a transaction is read as that transaction. -/
theorem readLine_line (r : Record now) : readLine now (line r.toTransaction) = .ok (some r.toTransaction) := by
  have hlen : (cstr (line r.toTransaction)).length ≤ 1024 := by
    rw [r.line_cstr]
    exact r.short
  have hflush : Flush (line r.toTransaction) := by
    rw [Flush, r.line_removespace]
  have htokens : readTokens now (fields r.toTransaction) = .ok r.toTransaction := by
    rw [fields, readTokens_of_checked r.checked r.nonempty, r.read_amount]
    exact congrArg Except.ok r.transOfTokens_eq
  rw [readLine_flush hlen hflush, r.line_fields, htokens]
  rfl

end Record

/-! ## Files -/

theorem linesFrom_records (records : List (Record now)) :
    linesFrom now (records.map fun r => line r.toTransaction) = .ok (records.map (·.toTransaction)) := by
  induction records with
  | nil => rfl
  | cons r records ih =>
    rw [List.map_cons, linesFrom, r.readLine_line]
    simp only [bind, Except.bind, ih, List.map_cons]

theorem bufs_records (records : List (Record now)) :
    bufs (records.flatMap fun r => line r.toTransaction) = records.map fun r => line r.toTransaction := by
  rw [bufs, List.flatMap_def]
  refine bufsFrom_lines (fun l hl => ?_) (Nat.le_refl _)
  obtain ⟨r, -, rfl⟩ := List.mem_map.1 hl
  exact r.fits

/-- `read` gives back the records that have been written on the lines of a file: the list
has an element for each, in their order. -/
theorem read_records (records : List (Record now)) {malloc : Nat → Nat} {m : Memory} (ha : m.live m.anchor = true)
    (h0 : m.live NULL = false) (hm : Allocates malloc m records.length) :
    ∃ m₁ m₂, My402ListInit m = some (m₁, true) ∧
      My402Sort.read now malloc (records.flatMap fun r => line r.toTransaction) m₁ = .ok ⟨m₂, records.map (·.toTransaction)⟩ ∧
      Holds m₂ (elems malloc records.length) := by
  obtain ⟨m₁, hinit, h₁⟩ := init_filled ha h0 hm
  have hlines := linesFrom_records records
  rw [← bufs_records] at hlines
  have hlen : (bufs (records.flatMap fun r => line r.toTransaction)).length = records.length := by
    rw [bufs_records, List.length_map]
  obtain ⟨m₂, hread, h₂⟩ := (readFrom_fills now _ hm h₁ (by simp [hlen])).2 _ hlines
  refine ⟨m₁, m₂, hinit, hread, ?_⟩
  have hholds := h₂.holds
  rw [List.nil_append, List.length_map] at hholds
  exact hholds

/-- A deposit of 12.34 and a withdrawal of 7 cents. -/
def twoRecords : List (Record 1700000000) :=
  [{ type := '+', time := 1600000000, amount := 1234, description := "pay day".toList, type_sign := by decide,
     time_range := by decide, amount_lt := by decide, nonempty := by decide, plain := by decide, string := by decide,
     trimmed := fun c hc => by rcases hc with h | h <;> cases h <;> decide, short := by decide },
   { type := '-', time := 0, amount := 7, description := ['x'], type_sign := by decide,
     time_range := by decide, amount_lt := by decide, nonempty := by decide, plain := by decide, string := by decide,
     trimmed := fun c hc => by rcases hc with h | h <;> cases h <;> decide, short := by decide }]

theorem twoRecords_read : ∃ m₁ m₂, My402ListInit noElems = some (m₁, true) ∧
    My402Sort.read 1700000000 (fun k => k + 2) "+\t1600000000\t12.34\tpay day\n-\t0\t0.07\tx\n".toList m₁ =
      .ok ⟨m₂, [⟨'+', 1600000000, 1234, "pay day".toList⟩, ⟨'-', 0, 7, ['x']⟩]⟩ ∧
    Holds m₂ [(2, 0), (3, 1)] := by
  have hfile : (twoRecords.flatMap fun r => line r.toTransaction) =
      "+\t1600000000\t12.34\tpay day\n-\t0\t0.07\tx\n".toList := by
    decide +kernel
  rw [← hfile]
  exact read_records twoRecords rfl rfl (noElems_allocates _)

end Weenix.My402Sort
