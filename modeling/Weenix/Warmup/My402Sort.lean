import Weenix.Basic
import Weenix.Warmup.My402List
import Mathlib.Data.List.DropRight
/-!
# The sort of warmup1 (`my402sort.c`)

A file is its characters. A transaction that `read` makes has its number in the list
`trans` for its address; the elements are those of `my402list.c`, with the addresses
that `malloc` returns. There is memory for each transaction and each `strdup`.
The program ends with a message, or goes wrong at one of three places.
-/

namespace Weenix.My402Sort
open My402List

structure Transaction where
  type : Char
  time : Int
  amount : Nat
  description : List Char
deriving DecidableEq, Repr

/-- What the language leaves undefined. -/
inductive Hazard
  /-- A fifth token is written to `token[4]`. -/
  | token
  /-- `free` gets a pointer into a string. -/
  | free
  /-- What is followed is not an element, or not a transaction. -/
  | elem
deriving DecidableEq, Repr

/-- How the program ends before `main` returns. -/
inductive Stop
  /-- `exit(0)`, after the message. -/
  | exit (message : String)
  | crash (h : Hazard)
  /-- The turns of a loop have run out. -/
  | turns
deriving DecidableEq, Repr

def deref {α : Type} : Option α → Except Stop α
  | some a => .ok a
  | none => .error (.crash .elem)

/-! ## Characters and strings -/

def isspace (c : Char) : Bool := c == ' ' || (9 ≤ c.toNat && c.toNat ≤ 13)

def isdigit (c : Char) : Bool := 48 ≤ c.toNat && c.toNat ≤ 57

/-- `atoi` of a digit. -/
def atoi (c : Char) : Nat := c.toNat - 48

/-- The string that begins a buffer: what comes before the first `NUL`. -/
def cstr (buf : List Char) : List Char := buf.takeWhile fun c => c.toNat ≠ 0

/-- At most `n` characters, to the end of the line; and what is left. -/
def fgets : Nat → List Char → List Char × List Char
  | 0, file => ([], file)
  | _ + 1, [] => ([], [])
  | n + 1, c :: file =>
    if c = '\n' then ([c], file)
    else (c :: (fgets n file).1, (fgets n file).2)

/-- What `fgets` puts into `buf[1026]`, call after call; each takes a character, or there is none. -/
def bufsFrom : Nat → List Char → List (List Char)
  | 0, _ => []
  | _ + 1, [] => []
  | n + 1, c :: file => (fgets 1025 (c :: file)).1 :: bufsFrom n (fgets 1025 (c :: file)).2

def bufs (file : List Char) : List (List Char) := bufsFrom file.length file

/-- How far the pointer has moved, and the string it points to. -/
def removespace (str : List Char) : Nat × List Char :=
  let rest := str.dropWhile isspace
  (str.length - rest.length, rest.rdropWhile isspace)

/-- What `strtok` returns with `"\t"`, call after call. -/
def strtok (str : List Char) : List (List Char) := (str.splitOn '\t').filter fun tok => tok ≠ []

/-- The value of a digit or letter; other characters are digits in no base. -/
def digitOf (c : Char) : Nat :=
  if isdigit c then c.toNat - 48
  else if 97 ≤ c.toNat ∧ c.toNat ≤ 122 then c.toNat - 87
  else if 65 ≤ c.toNat ∧ c.toNat ≤ 90 then c.toNat - 55
  else 36

/-- The base that the prefix of a number says, and the number without `0x`. -/
def baseOf : List Char → Nat × List Char
  | [] => (10, [])
  | c :: str =>
    if c ≠ '0' then (10, c :: str)
    else match str with
      | [] => (8, [c])
      | x :: str => if x = 'x' ∨ x = 'X' then (16, str) else (8, c :: x :: str)

/-- Whether there is a minus, and what follows the sign. -/
def signOf : List Char → Bool × List Char
  | [] => (false, [])
  | c :: str => if c = '-' then (true, str) else if c = '+' then (false, str) else (false, c :: str)

/-- `strtoul(str, NULL, 0)`. -/
def strtoul (str : List Char) : Nat :=
  let (minus, str) := signOf (str.dropWhile isspace)
  let (base, str) := baseOf str
  let n := (str.takeWhile fun c => digitOf c < base).foldl (fun n c => n * base + digitOf c) 0
  if 2 ^ 64 ≤ n then 2 ^ 64 - 1
  else if minus then (2 ^ 64 - n) % 2 ^ 64
  else n

/-! ## `read` -/

/-- The loop over the tokens, with those written to `token`. -/
def tokenFrom : List (List Char) → List (List Char) → Except Stop (List (List Char))
  | token, [] => .ok token
  | token, tok :: toks =>
    if 4 < token.length then .ok token
    else if token.length < 4 then tokenFrom (token ++ [tok]) toks
    else .error (.crash .token)

/-- The first loop over `token[2]`, and what follows the point. -/
def unitsFrom : Nat → List Char → Except Stop (Nat × List Char)
  | _, [] => .error (.exit "Transaction amount not numeric\n")
  | amount, ch1 :: str =>
    if ch1 = '.' then .ok (amount, str)
    else if !isdigit ch1 then .error (.exit "Transaction amount not numeric\n")
    else unitsFrom ((amount * 10 + atoi ch1) % 2 ^ 64) str

/-- The second loop, with `checkLen`. -/
def centsFrom : Nat → Nat → List Char → Except Stop (Nat × Nat)
  | amount, checkLen, [] => .ok (amount, checkLen)
  | amount, checkLen, ch1 :: str =>
    if !isdigit ch1 then .error (.exit "Transaction amount is not numeric\n")
    else centsFrom ((amount * 10 + atoi ch1) % 2 ^ 64) (checkLen + 1) str

def readAmount (token2 : List Char) : Except Stop Nat := do
  let (amount, str) ← unitsFrom 0 token2
  if 10000000 ≤ amount then .error (.exit "Transaction amount too large\n")
  else
    let (amount, checkLen) ← centsFrom amount 0 str
    if checkLen ≠ 2 then .error (.exit "Transaction amount is too long\n")
    else .ok amount

/-- The checks on the tokens; `now` is `time(NULL)`. -/
def readTokens (now : Nat) : List (List Char) → Except Stop Transaction
  | [token0, token1, token2, token3] =>
    if 1 < token0.length ∨ token0 ≠ ['+'] ∧ token0 ≠ ['-'] then
      .error (.exit "Transaction type should be 1 character or + or - only\n")
    else
      let type := if token0 = ['+'] then '+' else '-'
      if 10 < token1.length then .error (.exit "Transaction timestamp is bad\n")
      else
        let transtime := strtoul token1
        if ¬ transtime ≤ now then .error (.exit "Timestamp should be between 0 and current time\n")
        else do
          let amount ← readAmount token2
          if token3.length = 0 then .error (.exit "Transaction description cannot be empty\n")
          else .ok ⟨type, (transtime : Int).bmod (2 ^ 64), amount, token3⟩
  | _ => .error (.exit "Transaction must have 4 fields\n")

/-- The body of the loop; a line that is only its end is passed over. -/
def readLine (now : Nat) (buf : List Char) : Except Stop (Option Transaction) :=
  if cstr buf = ['\n'] then .ok none
  else if 1024 < (cstr buf).length then .error (.exit "\nTransaction length cannot be more than 1024\n")
  else do
    let (offset, tempstr) := removespace (cstr buf)
    if offset ≠ 0 then .error (.crash .free)
    else
      let token ← tokenFrom [] (strtok tempstr)
      let t ← readTokens now token
      .ok (some t)

/-- The memory of the list, and the transactions. -/
structure Store where
  m : Memory
  trans : List Transaction

/-- The loop of `read`; `malloc k` is what `malloc` returns for the element of transaction `k`. -/
def readFrom (now : Nat) (malloc : Nat → Nat) (s : Store) : List (List Char) → Except Stop Store
  | [] => .ok s
  | buf :: bufs => do
    match ← readLine now buf with
    | none => readFrom now malloc s bufs
    | some t =>
      let (m, _) ← deref (My402ListAppend s.m s.trans.length (malloc s.trans.length))
      readFrom now malloc ⟨m, s.trans ++ [t]⟩ bufs

def read (now : Nat) (malloc : Nat → Nat) (file : List Char) (mylist : Memory) : Except Stop Store :=
  readFrom now malloc ⟨mylist, []⟩ (bufs file)

/-! ## `sorting` -/

/-- `(transaction*)elem->obj`. -/
def transOf (trans : List Transaction) (m : Memory) (elem : Nat) : Option Transaction := do trans[← m.getObj elem]?

section
variable (trans : List Transaction)

/-- The inner loop, for at most `n` turns. -/
def exchangeFrom (m : Memory) (elem nextelem : Nat) : Nat → Except Stop Memory
  | 0 => .error .turns
  | n + 1 =>
    if nextelem = NULL then .ok m
    else do
      let t ← deref (transOf trans m elem)
      let t' ← deref (transOf trans m nextelem)
      if t'.time < t.time then
        let temp ← deref (m.getObj elem)
        let m ← deref (m.setObj elem (← deref (m.getObj nextelem)))
        let m ← deref (m.setObj nextelem temp)
        exchangeFrom m elem (← deref (My402ListNext m nextelem)) n
      else if t.time = t'.time then .error (.exit "Duplicate timestamp values\n")
      else exchangeFrom m elem (← deref (My402ListNext m nextelem)) n

/-- The outer loop, for at most `k` turns; its inner loop has `n`. -/
def sortFrom (n : Nat) (m : Memory) (elem : Nat) : Nat → Except Stop Memory
  | 0 => .error .turns
  | k + 1 => do
    let nextelem ← deref (My402ListNext m elem)
    if nextelem = NULL then .ok m
    else
      let m ← exchangeFrom trans m elem nextelem n
      sortFrom n m (← deref (My402ListNext m elem)) k

def sorting (n : Nat) (m : Memory) : Except Stop Memory := do
  sortFrom trans n m (← deref (My402ListFirst m)) n

end

/-! ## `PrintList` -/

/-- The digits from position `i` down, before those that are there; and the position they leave. -/
def digitsFrom : Nat → Int → List Char → Nat × List Char
  | 0, _, amt => (0, amt)
  | i + 1, amount, amt =>
    if i + 1 = 10 then digitsFrom i amount ('.' :: amt)
    else if i + 1 = 6 ∨ i + 1 = 2 then digitsFrom i amount (',' :: amt)
    else
      let amt := Char.ofNat (48 + amount.tmod 10).toNat :: amt
      if amount.tdiv 10 = 0 then (i, amt)
      else digitsFrom i (amount.tdiv 10) amt

/-- The 14 characters between `left` and `right`. -/
def moneyField (left right : Char) (amount : Int) : List Char :=
  let (i, amt) := digitsFrom 12 amount []
  let (i, amt) := if i = 10 then (8, '0' :: '.' :: amt) else (i, amt)
  left :: (List.replicate i ' ' ++ amt ++ [right])

def amountField (type : Char) (amount : Int) : List Char :=
  if type = '+' then
    if 1000000000 ≤ amount then " ?,???,???.?? | ".toList else moneyField ' ' ' ' amount ++ " | ".toList
  else
    if 1000000000 ≤ amount then "(?,???,???.??) |".toList else moneyField '(' ')' amount ++ " | ".toList

def balanceField (balanceMain : Int) : List Char :=
  if 0 ≤ balanceMain then
    if 1000000000 ≤ balanceMain then " ?,???,???.?? |\n".toList else moneyField ' ' ' ' balanceMain ++ " |\n".toList
  else
    let bal := (balanceMain * (-1)).bmod (2 ^ 64)
    if 1000000000 ≤ bal then "(?,???,???.??) |\n".toList else moneyField '(' ')' bal ++ " |\n".toList

/-- The first 24 characters, and blanks up to 24. -/
def descField (description : List Char) : List Char := (description.take 24).rightpad 24 ' '

/-- The day and the month, and the year, of what `ctime` returns. -/
def dateField (transtime : List Char) : List Char :=
  cstr ((List.range 15).map fun i => transtime.getD (if 10 < i then i + 9 else i) (Char.ofNat 0))

def balanceAfter (balanceMain : Int) (t : Transaction) : Int :=
  if t.type = '+' then (balanceMain + (t.amount : Int).bmod (2 ^ 64)).bmod (2 ^ 64)
  else (balanceMain - (t.amount : Int).bmod (2 ^ 64)).bmod (2 ^ 64)

def row (ctime : Int → List Char) (balanceMain : Int) (t : Transaction) : List Char :=
  "| ".toList ++ dateField (ctime t.time) ++ " | ".toList ++ descField t.description ++ " | ".toList ++
    amountField t.type ((t.amount : Int).bmod (2 ^ 64)) ++ balanceField (balanceAfter balanceMain t)

section
variable (trans : List Transaction) (ctime : Int → List Char) (m : Memory)

/-- The loop over the elements, for at most `n` turns. -/
def printFrom (elem : Nat) (balanceMain : Int) : Nat → Except Stop (List Char)
  | 0 => .error .turns
  | n + 1 =>
    if elem = NULL then .ok []
    else do
      let t ← deref (transOf trans m elem)
      let rows ← printFrom (← deref (My402ListNext m elem)) (balanceAfter balanceMain t) n
      .ok (row ctime balanceMain t ++ rows)

def rule : List Char :=
  "+-----------------+--------------------------+----------------+----------------+\n".toList

def PrintList (n : Nat) : Except Stop (List Char) := do
  let rows ← printFrom trans ctime m (← deref (My402ListFirst m)) 0 n
  .ok (rule ++ "|       Date      | Description              |         Amount |        Balance |\n".toList ++ rule ++
    rows ++ rule)

end

/-- What the program prints for a file; each loop over the list has `n` turns. -/
def main (now : Nat) (ctime : Int → List Char) (malloc : Nat → Nat) (n : Nat) (mylist : Memory) (file : List Char) :
    Except Stop (List Char) := do
  let (m, _) ← deref (My402ListInit mylist)
  let s ← read now malloc file m
  let m ← sorting s.trans n s.m
  PrintList s.trans ctime m n

end Weenix.My402Sort
