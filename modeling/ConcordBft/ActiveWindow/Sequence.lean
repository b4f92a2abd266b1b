import ConcordBft.Lib.Run

/-!
# The active window of a sequence

`SequenceWithActiveWindow.hpp` keeps one item for each number of the active window and of up to
`WindowHistory` windows before it. One circular buffer holds them all. Numbers are `uint64_t`
values; the indexes of the buffer go through `uint16_t` variables, which is where they are reduced
below.
-/

namespace ConcordBft

open Verif Verif.Exec

/-- The template parameters, with what the static assertions ask of them. -/
structure WindowParams where
  windowSize : ℕ
  resolution : ℕ
  windowHistory : ℕ
  eight_le : 8 ≤ windowSize
  windowSize_lt : windowSize < 65535
  one_le : 1 ≤ resolution
  resolution_lt : resolution < windowSize
  aligned : windowSize % resolution = 0
  windowHistory_lt : windowHistory < 2 ^ 16

namespace WindowParams

variable (p : WindowParams)

def numItemsInsideActiveWindow : ℕ := p.windowSize / p.resolution

def maxNumItemsInsideInactiveWindow : ℕ := p.windowHistory * p.numItemsInsideActiveWindow

def totalItems : ℕ := p.maxNumItemsInsideInactiveWindow + p.numItemsInsideActiveWindow

end WindowParams

/-- `ItemFuncs`: what is done to the items themselves. -/
structure ItemFuncs (α : Type) where
  init : α → α
  reset : α → α

structure SequenceWithActiveWindow (α : Type) where
  beginningOfActiveWindow : ℕ
  firstItemOfActiveWindow : ℕ
  numItemsInsideInactiveWindow : ℕ
  workingWindow : List α

/-- `for (uint16_t i = 0; i < totalItems; i++)` over the items, from a given `i` on. The counter has
16 bits and `totalItems` has 32. -/
def forEachItem {α : Type} (f : α → α) (totalItems : ℕ) : ℕ → ℕ → List α → Exec (List α)
  | 0, _, _ => .error .unfinished
  | fuel + 1, i, items =>
    if i < totalItems then
      forEachItem f totalItems fuel ((i + 1) % 2 ^ 16) (items.modify i f)
    else .ok items

/-- The loop of `advanceActiveWindow`: `resetCount` items from the place `i` on, around the
buffer. -/
def resetItems {α : Type} (f : α → α) (totalItems : ℕ) : ℕ → ℕ → List α → List α
  | 0, _, items => items
  | resetCount + 1, i, items =>
    resetItems f totalItems resetCount ((i + 1) % totalItems % 2 ^ 16) (items.modify i f)

namespace SequenceWithActiveWindow

variable {α : Type} (p : WindowParams) (funcs : ItemFuncs α) (fuel : ℕ)

def item (items : List α) (i : ℕ) : Exec α :=
  match items[i]? with
  | some x => .ok x
  | none => .error .index

def construct (items : List α) (windowFirst : ℕ) : Exec (SequenceWithActiveWindow α) := do
  ensure (windowFirst % p.resolution == 0)
  let workingWindow ← forEachItem (fun x => funcs.reset (funcs.init x)) p.totalItems fuel 0 items
  return ⟨windowFirst, 0, 0, workingWindow⟩

variable (s : SequenceWithActiveWindow α) (n : ℕ)

def insideActiveWindow : Bool :=
  n ≥ s.beginningOfActiveWindow && n < (s.beginningOfActiveWindow + p.windowSize) % 2 ^ 64

def getBeginningOfInactiveWindow : Exec ℕ := do
  ensure (s.numItemsInsideInactiveWindow > 0)
  return (s.beginningOfActiveWindow + 2 ^ 64 -
    s.numItemsInsideInactiveWindow * p.resolution % 2 ^ 64) % 2 ^ 64

def isPressentInHistory : Exec Bool := do
  if s.numItemsInsideInactiveWindow > 0 then
    let beginningOfInactiveWindow ← s.getBeginningOfInactiveWindow p
    return n ≥ beginningOfInactiveWindow && n < s.beginningOfActiveWindow
  return false

def place : Exec ℕ := do
  ensure (n % p.resolution == 0)
  ensure (s.insideActiveWindow p n)
  let offsetFromActiveWinBegin := (n - s.beginningOfActiveWindow) / p.resolution
  return (s.firstItemOfActiveWindow + offsetFromActiveWinBegin) % p.totalItems % 2 ^ 16

def get : Exec α := do
  let i ← s.place p n
  item s.workingWindow i

/-- An assignment through the reference that `get` returns. -/
def modify (x : α) : Exec (SequenceWithActiveWindow α) := do
  let i ← s.place p n
  ensure (i < s.workingWindow.length)
  return { s with workingWindow := s.workingWindow.set i x }

def getFromHistory : Exec α := do
  let present ← s.isPressentInHistory p n
  ensure present
  ensure (n % p.resolution == 0)
  ensure (s.numItemsInsideInactiveWindow > 0)
  ensure (s.numItemsInsideInactiveWindow ≤ p.maxNumItemsInsideInactiveWindow)
  let beginningOfInactiveWindow ← s.getBeginningOfInactiveWindow p
  let offsetFromInactiveWinBegin := (n - beginningOfInactiveWindow) / p.resolution
  let i := (s.firstItemOfActiveWindow + 2 ^ 64 - s.numItemsInsideInactiveWindow + p.totalItems +
    offsetFromInactiveWinBegin) % 2 ^ 64 % p.totalItems
  item s.workingWindow i

def resetAll (windowFirst : ℕ) : Exec (SequenceWithActiveWindow α) := do
  ensure (windowFirst % p.resolution == 0)
  let workingWindow ← forEachItem funcs.reset p.totalItems fuel 0 s.workingWindow
  return { s with
    workingWindow
    beginningOfActiveWindow := windowFirst
    numItemsInsideInactiveWindow := 0 }

def advanceActiveWindow (newFirstNumOfActiveWindow : ℕ) : Exec (SequenceWithActiveWindow α) := do
  ensure (newFirstNumOfActiveWindow % p.resolution == 0)
  ensure (newFirstNumOfActiveWindow ≥ s.beginningOfActiveWindow)
  if newFirstNumOfActiveWindow = s.beginningOfActiveWindow then
    return s
  if newFirstNumOfActiveWindow - s.beginningOfActiveWindow > p.windowSize then
    s.resetAll p funcs fuel newFirstNumOfActiveWindow
  else
    let numItemsToAdvanceActiveWindowWith :=
      (newFirstNumOfActiveWindow - s.beginningOfActiveWindow) / p.resolution % 2 ^ 16
    let oldActiveEnd :=
      (s.firstItemOfActiveWindow + p.numItemsInsideActiveWindow) % p.totalItems % 2 ^ 16
    let newActiveBegin :=
      (s.firstItemOfActiveWindow + numItemsToAdvanceActiveWindowWith) % p.totalItems % 2 ^ 16
    let resetSize := numItemsToAdvanceActiveWindowWith
    ensure (resetSize > 0 && resetSize ≤ p.numItemsInsideActiveWindow)
    let workingWindow := resetItems funcs.reset p.totalItems resetSize oldActiveEnd s.workingWindow
    let numItems := s.numItemsInsideInactiveWindow + numItemsToAdvanceActiveWindowWith
    return {
      workingWindow
      firstItemOfActiveWindow := newActiveBegin
      beginningOfActiveWindow := newFirstNumOfActiveWindow
      numItemsInsideInactiveWindow :=
        if numItems > p.maxNumItemsInsideInactiveWindow then p.maxNumItemsInsideInactiveWindow
        else numItems }

end SequenceWithActiveWindow

inductive WindowOp (α : Type)
  | modify (n : ℕ) (x : α)
  | advanceActiveWindow (newFirst : ℕ)
  | resetAll (windowFirst : ℕ)

def SequenceWithActiveWindow.apply {α : Type} (p : WindowParams) (funcs : ItemFuncs α) (fuel : ℕ)
    (s : SequenceWithActiveWindow α) : WindowOp α → Exec (SequenceWithActiveWindow α)
  | .modify n x => s.modify p n x
  | .advanceActiveWindow newFirst => s.advanceActiveWindow p funcs fuel newFirst
  | .resetAll windowFirst => s.resetAll p funcs fuel windowFirst

end ConcordBft
