import Nachos.Framework.Chain

/-!
# `List` (threads/list.cc)

Singly linked lists of `void *` items with pointers to the first and the last
element. The elements live in a heap (`LinkedList.heap`), from which `delete`
removes them; `new ListElement` puts one at an address `a` that the allocator
chose. An operation is `none` when it goes through a null pointer or through a
pointer to an element that has been deleted, and when its loop does not end:
a loop that passes more elements than the heap holds has gone round a cycle.

`Op` lists the calls, `LinkedList.call` performs one on the representation and
`Op.abs` on the mathematical sequence of keys and items it stands for.
-/

namespace Nachos.Threads

/-- `class ListElement`. An item is a `void *`: `none` is `NULL`. -/
structure ListElement (α : Type) where
  next : Option Nat
  key : Int
  item : Option α
deriving DecidableEq

/-- `class List`, with the heap its elements are allocated in. -/
structure LinkedList (α : Type) where
  heap : Finmap fun _ : Nat => ListElement α
  first : Option Nat
  last : Option Nat

namespace LinkedList

variable {α : Type}

/-- `List::List`. -/
def new : LinkedList α := ⟨∅, none, none⟩

/-- `List::IsEmpty`. -/
def isEmpty (l : LinkedList α) : Bool := l.first.isNone

/-- `List::Append`; the element is allocated at `a`. -/
def append (a : Nat) (item : Option α) (l : LinkedList α) : Option (LinkedList α) :=
  let heap := l.heap.insert a ⟨none, 0, item⟩
  if l.isEmpty then some ⟨heap, some a, some a⟩
  else do
    let p ← l.last
    let e ← heap.lookup p
    return ⟨heap.insert p { e with next := some a }, l.first, some a⟩

/-- `List::Prepend`; the element is allocated at `a`. -/
def prepend (a : Nat) (item : Option α) (l : LinkedList α) : LinkedList α :=
  if l.isEmpty then ⟨l.heap.insert a ⟨none, 0, item⟩, some a, some a⟩
  else ⟨l.heap.insert a ⟨l.first, 0, item⟩, some a, l.last⟩

/-- `List::SortedRemove`: the item, and the key that is stored in `*keyPtr`
(which an empty list leaves alone). -/
def sortedRemove (l : LinkedList α) : Option ((Option α × Option Int) × LinkedList α) :=
  if l.isEmpty then some ((none, none), l)
  else do
    let p ← l.first
    let e ← l.heap.lookup p
    let l' : LinkedList α :=
      if l.first = l.last then ⟨l.heap, none, none⟩ else ⟨l.heap, e.next, l.last⟩
    return ((e.item, some e.key), { l' with heap := l'.heap.erase p })

/-- `List::Remove`: `SortedRemove(NULL)`. -/
def remove (l : LinkedList α) : Option (Option α × LinkedList α) :=
  l.sortedRemove.map fun r => (r.1.1, r.2)

/-- The loop of `List::SortedInsert` from `ptr`: the element after which the
new one goes, or `none` when it goes at the end. -/
def sortedLoop (heap : Finmap fun _ : Nat => ListElement α) (sortKey : Int) :
    Nat → Nat → Option (Option Nat)
  | 0, _ => none
  | n + 1, ptr => do
    let e ← heap.lookup ptr
    match e.next with
    | none => return none
    | some q =>
      let f ← heap.lookup q
      if sortKey < f.key then return some ptr
      sortedLoop heap sortKey n q

/-- `List::SortedInsert`; the element is allocated at `a`. -/
def sortedInsert (a : Nat) (item : Option α) (sortKey : Int) (l : LinkedList α) :
    Option (LinkedList α) :=
  let heap := l.heap.insert a ⟨none, sortKey, item⟩
  match l.first with
  | none => some ⟨heap, some a, some a⟩
  | some c => do
    let e ← heap.lookup c
    if sortKey < e.key then
      return ⟨heap.insert a ⟨l.first, sortKey, item⟩, some a, l.last⟩
    match ← sortedLoop heap sortKey (heap.keys.card + 1) c with
    | some ptr =>
      let f ← heap.lookup ptr
      let heap := heap.insert a ⟨f.next, sortKey, item⟩
      return ⟨heap.insert ptr { f with next := some a }, l.first, l.last⟩
    | none =>
      let p ← l.last
      let f ← heap.lookup p
      return ⟨heap.insert p { f with next := some a }, l.first, some a⟩

/-- The elements passed by walking from a pointer along `next`, with their
addresses. -/
def walk (heap : Finmap fun _ : Nat => ListElement α) :
    Nat → Option Nat → Option (List (Nat × ListElement α))
  | 0, _ => none
  | _ + 1, none => some []
  | n + 1, some c => do
    let e ← heap.lookup c
    let cs ← walk heap n e.next
    return (c, e) :: cs

/-- The elements reachable from `first`. -/
def elements (l : LinkedList α) : Option (List (Nat × ListElement α)) :=
  walk l.heap (l.heap.keys.card + 1) l.first

variable [DecidableEq α]

/-- The loop of `List::RemoveElement`, which ends with `previous` and
`current`. -/
def removeLoop (heap : Finmap fun _ : Nat => ListElement α) (item : Option α) :
    Nat → Option Nat → Option Nat → Option (Option Nat × Option Nat)
  | 0, _, _ => none
  | _ + 1, previous, none => some (previous, none)
  | n + 1, previous, some current => do
    let e ← heap.lookup current
    if e.item = item then return (previous, some current)
    removeLoop heap item n (some current) e.next

/-- `List::RemoveElement`. -/
def removeElement (item : Option α) (l : LinkedList α) : Option (Option α × LinkedList α) :=
  match l.first with
  | none => some (none, l)
  | some c => do
    let e ← l.heap.lookup c
    if e.item = item then
      -- the head is unlinked by moving `first`; `last` is not looked at
      return (e.item, { l with first := e.next, heap := l.heap.erase c })
    match ← removeLoop l.heap item (l.heap.keys.card + 1) none l.first with
    | (_, none) => return (none, l)
    | (previous, some current) =>
      let e ← l.heap.lookup current
      let p ← previous
      let f ← l.heap.lookup p
      return (e.item, { l with heap := (l.heap.insert p { f with next := e.next }).erase current })

/-- The loop of `List::Search`. -/
def searchLoop (heap : Finmap fun _ : Nat => ListElement α) (item : Option α) :
    Nat → Option Nat → Option Bool
  | 0, _ => none
  | _ + 1, none => some false
  | n + 1, some current => do
    let e ← heap.lookup current
    if e.item = item then return true
    searchLoop heap item n e.next

/-- `List::Search`. -/
def search (item : Option α) (l : LinkedList α) : Option Bool :=
  searchLoop l.heap item (l.heap.keys.card + 1) l.first

end LinkedList

/-! ## The calls -/

/-- A call of a method of `List`. -/
inductive Op (α : Type) where
  | append (item : Option α)
  | prepend (item : Option α)
  | remove
  | removeElement (item : Option α)
  | search (item : Option α)
  | isEmpty
  | sortedInsert (item : Option α) (sortKey : Int)
  | sortedRemove
deriving DecidableEq

/-- What a call returns; `SortedRemove` also stores a key. -/
inductive Ret (α : Type) where
  | void
  | ptr (p : Option α)
  | bool (b : Bool)
  | ptrKey (p : Option α) (key : Option Int)
deriving DecidableEq

/-- An entry of the mathematical sequence: an item with its sort key. -/
abbrev Entry (α : Type) := Int × Option α

variable {α : Type}

/-- Insertion before the first entry with a larger key. -/
def insertByKey (x : Entry α) : List (Entry α) → List (Entry α)
  | [] => [x]
  | y :: ys => if x.1 < y.1 then x :: y :: ys else y :: insertByKey x ys

variable [DecidableEq α]

/-- Perform a call; `a` is where `new ListElement` puts an element, if the
call makes one. -/
def LinkedList.call (a : Nat) : Op α → LinkedList α → Option (Ret α × LinkedList α)
  | .append item, l => (l.append a item).map fun l' => (.void, l')
  | .prepend item, l => some (.void, l.prepend a item)
  | .remove, l => l.remove.map fun r => (.ptr r.1, r.2)
  | .removeElement item, l => (l.removeElement item).map fun r => (.ptr r.1, r.2)
  | .search item, l => (l.search item).map fun b => (.bool b, l)
  | .isEmpty, l => some (.bool l.isEmpty, l)
  | .sortedInsert item k, l => (l.sortedInsert a item k).map fun l' => (.void, l')
  | .sortedRemove, l => l.sortedRemove.map fun r => (.ptrKey r.1.1 r.1.2, r.2)

/-- Perform a call on the mathematical sequence. -/
def Op.abs : Op α → List (Entry α) → Ret α × List (Entry α)
  | .append item, xs => (.void, xs ++ [(0, item)])
  | .prepend item, xs => (.void, (0, item) :: xs)
  | .remove, xs => (.ptr (xs.head?.bind Prod.snd), xs.tail)
  | .removeElement item, xs =>
    (.ptr (if item ∈ xs.map Prod.snd then item else none), xs.eraseP fun x => x.2 = item)
  | .search item, xs => (.bool (item ∈ xs.map Prod.snd), xs)
  | .isEmpty, xs => (.bool xs.isEmpty, xs)
  | .sortedInsert item k, xs => (.void, insertByKey (k, item) xs)
  | .sortedRemove, xs => (.ptrKey (xs.head?.bind Prod.snd) (xs.head?.map Prod.fst), xs.tail)

end Nachos.Threads
