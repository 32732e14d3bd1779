import Weenix.Warmup.Money
import Weenix.Warmup.Records
import Mathlib.Algebra.BigOperators.Group.List.Lemmas
/-!
# The statement of an account (`main`)

From a file of records the program prints a table: a row for each, by its time, with
the balance that the transactions up to it come to. The rows have the width of the
rules, and what their columns say can be read again.
-/

namespace Weenix.My402Sort
open Lib My402List

/-! ## What is printed -/

/-- What a transaction adds to the balance. -/
def signed (t : Transaction) : Int := (Money.amount t.type t.amount).value

/-- What the transactions up to a time come to, in whatever order they are. -/
def balanceAt (ts : List Transaction) (time : Int) : Int := ((ts.filter fun t => t.time ≤ time).map signed).sum

def entry (ctime : Int → List Char) (t : Transaction) (balance : Int) : List Char :=
  "| ".toList ++ dateField (ctime t.time) ++ " | ".toList ++ descField t.description ++ " | ".toList ++
    (Money.amount t.type t.amount).printed ++ (Money.balance balance).printed

def heading : List Char := "|       Date      | Description              |         Amount |        Balance |\n".toList

def entries (ctime : Int → List Char) (ts : List Transaction) : List (List Char) :=
  ts.map fun t => entry ctime t (balanceAt ts t.time)

/-- The table for the transactions `ts`. -/
def statement (ctime : Int → List Char) (ts : List Transaction) : List Char :=
  rule ++ heading ++ rule ++ (entries ctime ts).flatten ++ rule

/-- The text that records are written as. -/
def file {now : Nat} (records : List (Record now)) : List Char := records.flatMap fun r => line r.toTransaction

variable {now n N : Nat} {ts us : List Transaction} {t : Transaction} {balance time : Int}

/-! ## Balances -/

theorem balanceAt_perm (h : ts.Perm us) (time : Int) : balanceAt ts time = balanceAt us time :=
  ((h.filter _).map signed).sum_eq

theorem balanceAt_cons (t : Transaction) (ts : List Transaction) (time : Int) :
    balanceAt (t :: ts) time = (if t.time ≤ time then signed t else 0) + balanceAt ts time := by
  rw [balanceAt, List.filter_cons]
  by_cases h : t.time ≤ time
  · simp [h, balanceAt]
  · simp [h, balanceAt]

/-- Before the first time nothing has been added. -/
theorem balanceAt_before (h : ∀ t ∈ ts, time < t.time) : balanceAt ts time = 0 := by
  have hnil : ts.filter (fun t => decide (t.time ≤ time)) = [] := by
    rw [List.filter_eq_nil_iff]
    intro t ht
    have := h t ht
    simp only [decide_eq_true_eq]
    omega
  rw [balanceAt, hnil]
  rfl

/-- What the amounts come to, without their signs. -/
def turnover (ts : List Transaction) : Nat := (ts.map (·.amount)).sum

theorem signed_natAbs (t : Transaction) : (signed t).natAbs = t.amount := Money.amount_natAbs t.type t.amount

/-- A balance within the range of `long` is exact. -/
theorem balanceAfter_exact (h : balance.natAbs + t.amount < 2 ^ 63) : balanceAfter balance t = balance + signed t := by
  have hamount : (t.amount : Int).bmod (2 ^ 64) = t.amount := Int.bmod_eq_of_le (by omega) (by omega)
  rw [balanceAfter, hamount]
  by_cases htype : t.type = '+'
  · have hsigned : signed t = t.amount := by simp [signed, Money.value, htype]
    rw [if_pos htype, hsigned, Int.bmod_eq_of_le (by omega) (by omega)]
  · have hsigned : signed t = -t.amount := by simp [signed, Money.value, htype]
    rw [if_neg htype, hsigned, Int.bmod_eq_of_le (by omega) (by omega)]
    rfl

/-! ## The rows -/

/-- The rows of the transactions, from a balance on. -/
def rowsFrom (ctime : Int → List Char) : Int → List Transaction → List Char
  | _, [] => []
  | balance, t :: ts => row ctime balance t ++ rowsFrom ctime (balanceAfter balance t) ts

/-- In the order of their times, each with the balance at its time. -/
theorem rowsFrom_entries (ctime : Int → List Char) (hsorted : ts.Pairwise fun t u => t.time < u.time)
    (hfits : balance.natAbs + turnover ts < 2 ^ 63) :
    rowsFrom ctime balance ts = ts.flatMap fun t => entry ctime t (balance + balanceAt ts t.time) := by
  induction ts generalizing balance with
  | nil => rfl
  | cons t ts ih =>
    obtain ⟨hfirst, hsorted⟩ := List.pairwise_cons.1 hsorted
    have hsum : turnover (t :: ts) = t.amount + turnover ts := by simp [turnover]
    have hafter : balanceAfter balance t = balance + signed t := balanceAfter_exact (by omega)
    have hnat := signed_natAbs t
    have hhere : balanceAt (t :: ts) t.time = signed t := by
      rw [balanceAt_cons, if_pos (le_refl _), balanceAt_before hfirst, Int.add_zero]
    have hrest : ∀ u ∈ ts, entry ctime u (balance + signed t + balanceAt ts u.time) =
        entry ctime u (balance + balanceAt (t :: ts) u.time) := by
      intro u hu
      rw [balanceAt_cons, if_pos (le_of_lt (hfirst u hu)), Int.add_assoc]
    rw [rowsFrom, List.flatMap_cons, hafter, ih hsorted (by omega), row_printed, hafter, hhere, entry]
    exact congrArg _ (List.flatMap_congr hrest)

/-! ## The loops -/

variable {m : Memory} {trans : List Transaction} {l : List (Nat × Nat)}

/-- The transaction of a number. -/
def transAt (trans : List Transaction) (obj : Nat) : Transaction := trans.getD obj ⟨'+', 0, 0, []⟩

theorem printFrom_rows (ctime : Int → List Char) {bs : List Nat} (balance : Int) (hrow : Row m bs)
    (hobj : ∀ b ∈ bs, m.obj b < trans.length) (hn : bs.length < n) :
    printFrom trans ctime m (bs.headD NULL) balance n =
      .ok (rowsFrom ctime balance (bs.map fun b => transAt trans (m.obj b))) := by
  induction bs generalizing n balance with
  | nil =>
    obtain ⟨n, rfl⟩ : ∃ k, n = k + 1 := ⟨n - 1, by omega⟩
    simp [printFrom, rowsFrom]
  | cons b bs ih =>
    obtain ⟨n, rfl⟩ : ∃ k, n = k + 1 := ⟨n - 1, by omega⟩
    obtain ⟨⟨hlive, hb0, hnext⟩, hrow⟩ := hrow
    have hb := hobj b List.mem_cons_self
    have ht : transOf trans m b = some (transAt trans (m.obj b)) := by
      simp [transOf, Memory.getObj, hlive, transAt, hb]
    have hrest := ih (balanceAfter balance (transAt trans (m.obj b))) hrow
      (fun c hc => hobj c (List.mem_cons_of_mem _ hc)) (by simp at hn; omega)
    rw [List.headD_cons, printFrom, if_neg hb0]
    simp only [ht, hnext, deref, bind, Except.bind, hrest]
    rfl

/-- The table of a list, from the objects of its elements. -/
theorem printList_rows (ctime : Int → List Char) (h : Holds m l) (ht : HasTrans trans l) (hn : l.length < n) :
    PrintList trans ctime m n =
      .ok (rule ++ heading ++ rule ++ rowsFrom ctime 0 ((l.map Prod.snd).map (transAt trans)) ++ rule) := by
  have hobj : ∀ b ∈ l.map Prod.fst, m.obj b < trans.length := by
    intro b hb
    obtain ⟨x, hx, rfl⟩ := List.mem_map.1 hb
    rw [h.objs x hx]
    exact ht x hx
  have hrows := printFrom_rows ctime 0 (holds_row h) hobj (by simpa using hn)
  have hmap : (l.map Prod.fst).map (fun b => transAt trans (m.obj b)) = (l.map Prod.snd).map (transAt trans) := by
    rw [← h.objs_map]
    simp only [List.map_map, Function.comp_def]
  rw [hmap] at hrows
  simp only [PrintList, holds_first h, deref, bind, Except.bind, hrows]
  rfl

/-- The numbers of all transactions, in their order. -/
theorem elems_trans (malloc : Nat → Nat) (trans : List Transaction) :
    ((elems malloc trans.length).map Prod.snd).map (transAt trans) = trans := by
  have hsnd : (elems malloc trans.length).map Prod.snd = List.range trans.length := by
    rw [elems, List.map_map]
    exact List.map_id _
  rw [hsnd]
  refine List.ext_getElem (by simp) fun k hk hk' => ?_
  simp [transAt, hk']

/-- The time that the sort compares is that of the transaction. -/
theorem timeAt_trans {obj : Nat} (h : obj < trans.length) : timeAt trans obj = (transAt trans obj).time := by
  simp [timeAt, transAt, h]

/-- `sorting` and `PrintList`, on a list with an element for each transaction. -/
theorem sorted_printed (ctime : Int → List Char) {malloc : Nat → Nat} (h : Holds m (elems malloc ts.length)) (hne : ts ≠ [])
    (hn : ts.length < n) (hfits : turnover ts < 2 ^ 63) :
    ((ts.map (·.time)).Nodup → ∃ us m', us.Perm ts ∧ us.Pairwise (fun t u => t.time < u.time) ∧
      sorting ts n m = .ok m' ∧ PrintList ts ctime m' n = .ok (statement ctime us)) ∧
    (¬ (ts.map (·.time)).Nodup → sorting ts n m = .error (.exit "Duplicate timestamp values\n")) := by
  have hpos : 0 < ts.length := List.length_pos_iff.2 hne
  have hlen : (elems malloc ts.length).length < n := by rwa [elems_length]
  have hlist : elems malloc ts.length ≠ [] := by
    rw [ne_eq, ← List.length_eq_zero_iff, elems_length]
    omega
  have hsort := sorting_sort h hlist (elems_hasTrans ts) hlen
  -- the times that are compared are those of the transactions
  have htimes : ((elems malloc ts.length).map Prod.snd).map (timeAt ts) = ts.map (·.time) := by
    conv_rhs => rw [← elems_trans malloc ts, List.map_map]
    refine List.map_congr_left fun obj hobj => ?_
    obtain ⟨x, hx, rfl⟩ := List.mem_map.1 hobj
    exact timeAt_trans (elems_hasTrans ts x hx)
  rw [← htimes, ← exchangeSort_isSome_iff]
  cases hzs : exchangeSort (timeAt ts) ((elems malloc ts.length).map Prod.snd) with
  | none =>
    rw [hzs] at hsort
    exact ⟨fun h => absurd h (by simp), fun _ => hsort⟩
  | some zs =>
    rw [hzs] at hsort
    obtain ⟨f, hrun, rfl, -⟩ := hsort
    obtain ⟨hperm, hlt⟩ := exchangeSort_sorts hzs
    refine ⟨fun _ => ?_, fun h => absurd rfl h⟩
    have hplaced := holds_withObj h f
    have htrans : HasTrans ts (placed f ((elems malloc ts.length).map Prod.fst)) := by
      intro x hx
      have hmem : x.2 ∈ (placed f ((elems malloc ts.length).map Prod.fst)).map Prod.snd := List.mem_map_of_mem hx
      rw [placed_snd, hperm.mem_iff] at hmem
      obtain ⟨y, hy, he⟩ := List.mem_map.1 hmem
      rw [← he]
      exact elems_hasTrans ts y hy
    have hprint := printList_rows ctime hplaced htrans (by rw [placed, List.length_map, List.length_map]; exact hlen)
    rw [placed_snd] at hprint
    set us := (((elems malloc ts.length).map Prod.fst).map f).map (transAt ts) with hus
    have hus_perm : us.Perm ts := by
      have := hperm.map (transAt ts)
      rwa [elems_trans] at this
    have hus_sorted : us.Pairwise fun t u => t.time < u.time := by
      rw [hus, List.pairwise_map]
      rw [List.pairwise_map] at hlt
      refine hlt.imp_of_mem fun {a b} ha hb hab => ?_
      obtain ⟨x, hx, rfl⟩ := List.mem_map.1 (hperm.mem_iff.1 ha)
      obtain ⟨y, hy, rfl⟩ := List.mem_map.1 (hperm.mem_iff.1 hb)
      rwa [timeAt_trans (elems_hasTrans ts x hx), timeAt_trans (elems_hasTrans ts y hy)] at hab
    have hturnover : turnover us = turnover ts := (hus_perm.map _).sum_eq
    have hfits_us : (0 : Int).natAbs + turnover us < 2 ^ 63 := by rw [hturnover]; simpa using hfits
    have hrows := rowsFrom_entries ctime hus_sorted hfits_us
    refine ⟨us, _, hus_perm, hus_sorted, hrun, ?_⟩
    rw [hprint, hrows]
    simp only [statement, entries, Int.zero_add, List.flatMap_def]

/-! ## The columns -/

/-- The lines have the width of a rule. -/
def width : Nat := 81

def lineAt (text : List Char) (k : Nat) : List Char := (text.drop (width * k)).take width

def amountColumn (line : List Char) : List Char := (line.drop 47).take 14

def balanceColumn (line : List Char) : List Char := (line.drop 64).take 14

/-- `ctime` returns strings of 24 characters, or of more. -/
def Dates (ctime : Int → List Char) : Prop := ∀ time, 24 ≤ (ctime time).length ∧ ∀ c ∈ ctime time, c.toNat ≠ 0

theorem rule_length : rule.length = width := by decide

theorem heading_length : heading.length = width := by decide

theorem dateField_length {transtime : List Char} (hlen : 24 ≤ transtime.length) (h : ∀ c ∈ transtime, c.toNat ≠ 0) :
    (dateField transtime).length = 15 := by
  have hall : dateField transtime =
      (List.range 15).map fun i => transtime.getD (if 10 < i then i + 9 else i) (Char.ofNat 0) := by
    refine List.takeWhile_eq_self_iff.2 fun c hc => ?_
    obtain ⟨i, hi, rfl⟩ := List.mem_map.1 hc
    have hi := List.mem_range.1 hi
    have hin : (if 10 < i then i + 9 else i) < transtime.length := by split <;> omega
    rw [List.getD_eq_getElem?_getD, List.getElem?_eq_getElem hin, Option.getD_some, decide_eq_true_eq]
    exact h _ (List.getElem_mem hin)
  rw [hall, List.length_map, List.length_range]

theorem descField_length (description : List Char) : (descField description).length = 24 := by
  simp [descField, List.rightpad]

theorem printed_length {x : Money} (h : x.value.natAbs < 1000000000) : x.printed.length = 17 := by
  obtain ⟨rest, hlen, hrest⟩ := Money.printed_eq h
  rw [hrest, List.length_append, moneyField_length h, hlen]

/-- The columns of a row are where those of the heading are. -/
theorem entry_columns {ctime : Int → List Char} (hd : Dates ctime) (ht : t.amount < 1000000000)
    (hb : balance.natAbs < 1000000000) :
    (entry ctime t balance).length = width ∧ amountColumn (entry ctime t balance) = (Money.amount t.type t.amount).field ∧
      balanceColumn (entry ctime t balance) = (Money.balance balance).field := by
  have hx : (Money.amount t.type t.amount).value.natAbs < 1000000000 := by rwa [Money.amount_natAbs]
  have hamount := printed_length hx
  have hbalance := printed_length (x := .balance balance) hb
  have hdate := dateField_length (hd t.time).1 (hd t.time).2
  have hdesc := descField_length t.description
  have hfront : ("| ".toList ++ dateField (ctime t.time) ++ " | ".toList ++ descField t.description ++ " | ".toList).length
      = 47 := by
    simp [hdate, hdesc]
  rw [entry]
  set front := "| ".toList ++ dateField (ctime t.time) ++ " | ".toList ++ descField t.description ++ " | ".toList
  refine ⟨?_, ?_, ?_⟩
  · rw [List.length_append, List.length_append, hfront, hamount, hbalance]
    rfl
  · rw [amountColumn, List.append_assoc, List.drop_left' hfront, List.take_append_of_le_length (by omega)]
    rfl
  · rw [balanceColumn, List.drop_left' (by rw [List.length_append, hfront, hamount])]
    rfl

theorem lineAt_flatten {lines : List (List Char)} {k : Nat} (h : ∀ l ∈ lines, l.length = width) (hk : k < lines.length) :
    lineAt lines.flatten k = lines[k] := by
  induction lines generalizing k with
  | nil => cases hk
  | cons l lines ih =>
    have hl := h l List.mem_cons_self
    cases k with
    | zero => simp [lineAt, List.take_left' hl]
    | succ k =>
      have hdrop : (l :: lines).flatten.drop (width * (k + 1)) = lines.flatten.drop (width * k) := by
        rw [List.flatten_cons, Nat.mul_succ, Nat.add_comm, ← List.drop_drop, List.drop_left' hl]
      have hk : k < lines.length := by simpa using hk
      rw [lineAt, hdrop, List.getElem_cons_succ]
      exact ih (fun l hl => h l (List.mem_cons_of_mem _ hl)) hk

/-- The lines of the table. -/
theorem statement_lines (ctime : Int → List Char) (ts : List Transaction) :
    statement ctime ts = (rule :: heading :: rule :: (entries ctime ts ++ [rule])).flatten := by
  simp [statement]

/-- The row `k` of the table, its amount and its balance as they are read from it. -/
structure RowReads (text : List Char) (k : Nat) (t : Transaction) (balance : Int) : Prop where
  description : ((lineAt text (k + 3)).drop 20).take 24 = descField t.description
  amount : Money.reading (amountColumn (lineAt text (k + 3))) = signed t
  balance : Money.reading (balanceColumn (lineAt text (k + 3))) = balance

/-- What is printed for the transactions `ts` can be read as a table. -/
theorem statement_reads {ctime : Int → List Char} (hd : Dates ctime) (ht : ∀ t ∈ ts, t.amount < 1000000000)
    (hb : ∀ t ∈ ts, (balanceAt ts t.time).natAbs < 1000000000) {k : Nat} (hk : k < ts.length) :
    RowReads (statement ctime ts) k ts[k] (balanceAt ts ts[k].time) := by
  have hlines : ∀ l ∈ rule :: heading :: rule :: (entries ctime ts ++ [rule]), l.length = width := by
    simp only [List.forall_mem_cons, List.forall_mem_append, List.not_mem_nil, false_imp_iff, implies_true, and_true]
    refine ⟨rule_length, heading_length, rule_length, fun l hl => ?_, rule_length⟩
    obtain ⟨t, hmem, rfl⟩ := List.mem_map.1 hl
    exact (entry_columns hd (ht t hmem) (hb t hmem)).1
  have hmem := List.getElem_mem hk
  have hamount := ht _ hmem
  have hbalance := hb _ hmem
  have hline : lineAt (statement ctime ts) (k + 3) = entry ctime ts[k] (balanceAt ts ts[k].time) := by
    have hlen : k < (entries ctime ts).length := by rwa [entries, List.length_map]
    rw [statement_lines, lineAt_flatten hlines (by simp; omega)]
    simp only [List.getElem_cons_succ]
    rw [List.getElem_append_left hlen]
    simp [entries]
  have hcolumns := entry_columns hd hamount hbalance
  have hdate := dateField_length (hd ts[k].time).1 (hd ts[k].time).2
  refine ⟨?_, ?_, ?_⟩
  · have hfront : ("| ".toList ++ dateField (ctime ts[k].time) ++ " | ".toList).length = 20 := by simp [hdate]
    have hentry : entry ctime ts[k] (balanceAt ts ts[k].time) =
        ("| ".toList ++ dateField (ctime ts[k].time) ++ " | ".toList) ++ (descField ts[k].description ++ (" | ".toList ++
          (Money.amount ts[k].type ts[k].amount).printed ++ (Money.balance (balanceAt ts ts[k].time)).printed)) := by
      simp [entry]
    rw [hline, hentry, List.drop_left' hfront, List.take_left' (descField_length _)]
  · rw [hline, hcolumns.2.1]
    exact Money.field_reading (by rwa [Money.amount_natAbs])
  · rw [hline, hcolumns.2.2]
    exact Money.field_reading hbalance

/-! ## The program -/

/-- The time in seconds 0, and another. -/
def twoDates (time : Int) : List Char :=
  if time = 0 then "Thu Jan  1 00:00:00 1970\n".toList else "Sun Sep 13 12:26:40 2020\n".toList

end Weenix.My402Sort
