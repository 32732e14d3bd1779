import Weenix.Lib.BubbleSort
import Weenix.Warmup.Lists
/-!
# The test of the lists (`listtest.c`)

`DoTest` makes a list of numbers, shuffles it, copies it, sorts the one forwards
and the other backwards, and compares them. What `malloc` and the random numbers
give is open. Sorting exchanges elements, which are freed and allocated anew.
-/

namespace Weenix.ListTest
open Lib My402List

inductive Halt
  /-- `exit(1)`, after the message. -/
  | exit (message : String)
  /-- A null pointer is followed, or one to what is not allocated. -/
  | crash
  /-- The turns of a loop have run out. -/
  | turns

def deref {α : Type} : Option α → Except Halt α
  | some a => .ok a
  | none => .error .crash

structure World where
  heap : Heap
  mallocs : Nat := 0
  stdout : String := ""
  stderr : String := ""

/-- `(int)obj`. -/
def int (obj : Nat) : Int := (BitVec.ofNat 32 obj).toInt

namespace World

variable (w : World) (pList : Nat)

def list : Memory := w.heap.view pList

/-- As many turns as a loop over the list takes. -/
def turns : Nat := (w.list pList).num_members.toNat + 1

/-- A call that allocates no element. -/
def call (c : Call) : Except Halt World := do
  let (heap, _) ← deref (w.heap.run pList c)
  .ok { w with heap }

/-- A call that allocates one. -/
def insert (malloc : Nat → Heap → Nat) (c : Nat → Call) : Except Halt World := do
  let (heap, _) ← deref (w.heap.run pList (c (malloc w.mallocs w.heap)))
  .ok { w with heap, mallocs := w.mallocs + 1 }

end World

/-! ## Numbers in any order -/

/-- `round(dval)` is given. -/
def RandomIndex (round num_values : Int) : Int :=
  let idx := if round < 0 then 0 else round
  if num_values ≤ idx then num_values - 1 else idx

section
variable (malloc : Nat → Heap → Nat)

def createFrom (pList : Nat) : Nat → Nat → World → Except Halt World
  | 0, _, w => .ok w
  | n + 1, i, w => do createFrom pList n (i + 1) (← w.insert pList malloc (.append i))

def CreateTestList (w : World) (pList num_items : Nat) : Except Halt World := createFrom malloc pList num_items 0 w

/-- The element where `j` is `idx`. -/
def elemAt (m : Memory) (idx : Int) : Nat → Nat → Int → Except Halt Nat
  | 0, _, _ => .error .turns
  | n + 1, elem, j =>
    if elem = NULL then .ok NULL
    else if j = idx then .ok elem
    else do elemAt m idx n (← deref (My402ListNext m elem)) (j + 1)

def shuffleFrom (pList list2 num_items : Nat) (rand : Nat → Int) : Nat → Nat → World → Except Halt World
  | 0, _, w => .ok w
  | n + 1, i, w => do
    let m := w.list pList
    let idx := RandomIndex (rand i) (num_items - i)
    let elem ← elemAt m idx (w.turns pList) (← deref (My402ListFirst m)) 0
    if elem = NULL then .error (.exit "Unrecoverable error in RandomShuffle().\n")
    else do
      let obj ← deref (m.getObj elem)
      let w ← w.call pList (.unlink elem)
      let w ← w.insert list2 malloc (.append obj)
      shuffleFrom pList list2 num_items rand n (i + 1) w

/-- The loop that appends the objects from `elem` on to another list. -/
def copyFrom (pListFrom pListTo : Nat) : Nat → Nat → World → Except Halt World
  | 0, _, _ => .error .turns
  | n + 1, elem, w =>
    if elem = NULL then .ok w
    else do
      let obj ← deref ((w.list pListFrom).getObj elem)
      let w ← w.insert pListTo malloc (.append obj)
      copyFrom pListFrom pListTo n (← deref (My402ListNext (w.list pListFrom) elem)) w

def CopyTestList (w : World) (pListFrom pListTo : Nat) : Except Halt World := do
  copyFrom malloc pListFrom pListTo (w.turns pListFrom) (← deref (My402ListFirst (w.list pListFrom))) w

/-- `list2` is the local list. -/
def RandomShuffle (w : World) (pList list2 num_items : Nat) (rand : Nat → Int) : Except Halt World := do
  let w ← w.call list2 .init
  let w ← shuffleFrom malloc pList list2 num_items rand num_items 0 w
  if !My402ListEmpty (w.list pList) then .error (.exit "List not empty in RandomShuffle().\n")
  else do
    let w ← CopyTestList malloc w list2 pList
    w.call list2 (.unlinkAll (w.turns list2))

end

/-! ## Looking at a list -/

def findAllFrom (pList : Nat) : Nat → Nat → World → Except Halt World
  | 0, _, w => .ok w
  | n + 1, i, w => do
    if (← deref (My402ListFind (w.list pList) i)) = NULL then
      findAllFrom pList n (i + 1) { w with stderr := w.stderr ++ s!"Cannot find {i} in FindAllInList().\n" }
    else findAllFrom pList n (i + 1) w

def FindAllInList (w : World) (pList num_items : Nat) : Except Halt World := findAllFrom pList num_items 0 w

def printFrom (m : Memory) : Nat → Nat → Except Halt String
  | 0, _ => .error .turns
  | n + 1, elem =>
    if elem = NULL then .ok "\n"
    else do
      let ival := int (← deref (m.getObj elem))
      let rest ← printFrom m n (← deref (My402ListNext m elem))
      .ok (s!"{ival} " ++ rest)

def PrintTestList (w : World) (pList num_items : Nat) : Except Halt World :=
  let m := w.list pList
  if My402ListLength m ≠ num_items then .error (.exit s!"List length is not {num_items} in PrintTestList().\n")
  else do
    let line ← printFrom m (w.turns pList) (← deref (My402ListFirst m))
    .ok { w with stdout := w.stdout ++ line }

def compareFrom (m₁ m₂ : Memory) : Nat → Nat → Nat → Nat → Except Halt Unit
  | 0, _, _, _ => .error .turns
  | n + 1, elem1, elem2, idx =>
    if elem1 ≠ NULL ∧ elem2 ≠ NULL then do
      let ival1 := int (← deref (m₁.getObj elem1))
      let ival2 := int (← deref (m₂.getObj elem2))
      if ival1 ≠ ival2 then .error (.exit s!"({ival1},{ival2}): item {idx} not identical in CompareTestList().\n")
      else compareFrom m₁ m₂ n (← deref (My402ListNext m₁ elem1)) (← deref (My402ListNext m₂ elem2)) (idx + 1)
    else .ok ()

def CompareTestList (w : World) (pList1 pList2 num_items : Nat) : Except Halt Unit :=
  let m₁ := w.list pList1
  let m₂ := w.list pList2
  if My402ListLength m₁ ≠ num_items then .error (.exit s!"List1 length is not {num_items} in CompareTestList().\n")
  else if My402ListLength m₂ ≠ num_items then .error (.exit s!"List2 length is not {num_items} in CompareTestList().\n")
  else do compareFrom m₁ m₂ (w.turns pList1) (← deref (My402ListFirst m₁)) (← deref (My402ListFirst m₂)) 0

/-! ## Sorting, one way or the other -/

/-- The calls that go one way along a list, and when two neighbours are exchanged. -/
structure Way where
  first : Memory → Option Nat
  last : Memory → Option Nat
  next : Memory → Nat → Option Nat
  prev : Memory → Nat → Option Nat
  push : Nat → Nat → Call
  add : Nat → Nat → Call
  after : Nat → Nat → Nat → Call
  before : Nat → Nat → Nat → Call
  wrong : Int → Int → Bool

def forwards : Way :=
  ⟨My402ListFirst, My402ListLast, My402ListNext, My402ListPrev, .prepend, .append, .insertAfter, .insertBefore, fun cur_val next_val =>
    decide (cur_val > next_val)⟩

def backwards : Way :=
  ⟨My402ListLast, My402ListFirst, My402ListPrev, My402ListNext, .append, .prepend, .insertBefore, .insertAfter, fun cur_val prev_val =>
    decide (cur_val < prev_val)⟩

section
variable (malloc : Nat → Heap → Nat)

/-- The elements `elem1` and `elem2`, which follow each other, change places. The result has the new elements there. -/
def bubble (W : Way) (w : World) (pList elem1 elem2 : Nat) : Except Halt (World × Nat × Nat) := do
  let obj1 ← deref ((w.list pList).getObj elem1)
  let obj2 ← deref ((w.list pList).getObj elem2)
  let elem1prev ← deref (W.prev (w.list pList) elem1)
  let elem2next ← deref (W.next (w.list pList) elem2)
  let w ← w.call pList (.unlink elem1)
  let w ← w.call pList (.unlink elem2)
  let w ← w.insert pList malloc (if elem1prev = NULL then W.push obj2 else W.after obj2 elem1prev)
  let elem1 ← deref (if elem1prev = NULL then W.first (w.list pList) else W.next (w.list pList) elem1prev)
  let w ← w.insert pList malloc (if elem2next = NULL then W.add obj1 else W.before obj1 elem2next)
  let elem2 ← deref (if elem2next = NULL then W.last (w.list pList) else W.prev (w.list pList) elem2next)
  .ok (w, elem1, elem2)

def BubbleForward (w : World) (pList elem1 elem2 : Nat) := bubble malloc forwards w pList elem1 elem2

def BubbleBackward (w : World) (pList elem1 elem2 : Nat) := bubble malloc backwards w pList elem1 elem2

/-- The inner loop, with the comparisons that are left. -/
def bubbleFrom (W : Way) (pList : Nat) : Nat → Nat → Bool → World → Except Halt (World × Bool)
  | 0, _, something_swapped, w => .ok (w, something_swapped)
  | n + 1, elem, something_swapped, w => do
    let cur_val := int (← deref ((w.list pList).getObj elem))
    let next_elem ← deref (W.next (w.list pList) elem)
    let next_val := int (← deref ((w.list pList).getObj next_elem))
    if W.wrong cur_val next_val then do
      let (w, _, next_elem) ← bubble malloc W w pList elem next_elem
      bubbleFrom W pList n next_elem true w
    else bubbleFrom W pList n next_elem something_swapped w

/-- The outer loop, with the turns that are left. -/
def sortFrom (W : Way) (pList : Nat) : Nat → World → Except Halt World
  | 0, w => .ok w
  | n + 1, w => do
    let (w, something_swapped) ← bubbleFrom malloc W pList n (← deref (W.first (w.list pList))) false w
    if !something_swapped then .ok w else sortFrom W pList n w

/-- `name` is that of the function. -/
def bubbleSortList (W : Way) (name : String) (w : World) (pList num_items : Nat) : Except Halt World :=
  if My402ListLength (w.list pList) ≠ num_items then .error (.exit s!"List length is not {num_items} in {name}().\n")
  else sortFrom malloc W pList num_items w

def BubbleSortForwardList (w : World) (pList num_items : Nat) : Except Halt World :=
  bubbleSortList malloc forwards "BubbleSortForwardList" w pList num_items

def BubbleSortBackwardList (w : World) (pList num_items : Nat) : Except Halt World :=
  bubbleSortList malloc backwards "BubbleSortBackwardList" w pList num_items

/-! ## The test -/

/-- The lists are at the anchors `list` and `list2`, and the local one of `RandomShuffle` at `shuffled`. -/
def DoTest (w : World) (list list2 shuffled num_items : Nat) (gnDebug : Int) (rand : Nat → Int) : Except Halt World := do
  let w ← w.call list .init
  let w ← w.call list2 .init
  let w ← CreateTestList malloc w list num_items
  let w ← RandomShuffle malloc w list shuffled num_items rand
  let w ← FindAllInList w list num_items
  let w ← CopyTestList malloc w list list2
  let w ← BubbleSortForwardList malloc w list num_items
  let w ← if gnDebug > 0 then PrintTestList w list num_items else .ok w
  let w ← BubbleSortBackwardList malloc w list2 num_items
  let w ← if gnDebug > 0 then PrintTestList w list2 num_items else .ok w
  CompareTestList w list list2 num_items
  let w ← w.call list (.unlinkAll (w.turns list))
  w.call list2 (.unlinkAll (w.turns list2))

/-- `num_itr` tests of 64 items, each with random numbers of its own. -/
def processFrom (list list2 shuffled : Nat) (gnDebug : Int) (rand : Nat → Nat → Int) : Nat → Nat → World → Except Halt World
  | 0, _, w => .ok w
  | num_itr + 1, i, w => do
    processFrom list list2 shuffled gnDebug rand num_itr (i + 1) (← DoTest malloc w list list2 shuffled 64 gnDebug (rand i))

def Process (w : World) (list list2 shuffled : Nat) (gnDebug : Int) (rand : Nat → Nat → Int) : Except Halt World :=
  processFrom malloc list list2 shuffled gnDebug rand 10 0 w

end

end Weenix.ListTest
