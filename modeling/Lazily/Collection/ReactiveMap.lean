import Lazily.Collection.KeyedOrder

/-!
# The keyed map and its `RefCell` (`ReactiveMap` in `cell_family.rs`)

A map keeps its keys in a `RefCell`. Its functions borrow the cell and call into the runtime, which
runs user code at once: effects, computes, factories. That code may call the map again.

A function is given by what it does with the cell between its calls into the runtime (`Code`). What
the runtime runs is up to the caller: any sequence of calls, each of which may be interrupted in the
same way. A guard made in the condition of an `if let` lives to the end of its body.
-/

namespace Lazily.ReactiveMap

inductive Signal where
  | membership | order
  deriving DecidableEq, Repr

/-- What is left of a function. -/
inductive Code (K : Type) where
  | ret
  | runtime (next : Code K)
  | borrow (next : KeyedOrder K Nat → Code K)
  | release (next : Code K)
  /-- Change the keys in one statement, given a fresh handle. -/
  | borrowMut (change : KeyedOrder K Nat → Nat → KeyedOrder K Nat × Bool) (next : Bool → Code K)
  /-- Count a signal's version up. -/
  | version (signal : Signal) (next : Code K)

section Functions

variable {K : Type} [DecidableEq K]

open Code

def bumpOrder (next : Code K) : Code K := version .order (runtime next)

def bumpMembership (next : Code K) : Code K := version .membership (runtime (bumpOrder next))

variable (key : K) (next : Code K)

def insertEntry : Code K :=
  borrowMut
    (fun core handle =>
      let (core, _, mutation) := core.insert key handle
      (core, mutation == .changed))
    fun changed => if changed then bumpMembership next else next

/-- The runtime call is `H::materialize`. -/
def mintWith : Code K :=
  borrow fun core =>
    release (if core.contains key then next else runtime (insertEntry key next))

/-- The guard of the lookup is alive while a present entry is observed. -/
def getOrInsertWith : Code K :=
  borrow fun core =>
    if core.contains key then runtime (release ret) else release (mintWith key (runtime ret))

/-- `handle`, `present_keys`, `present_count`, `is_present`, `position`, `len_untracked`. -/
def look : Code K := borrow fun _ => release ret

def get : Code K :=
  borrow fun core => release (if core.contains key then runtime ret else ret)

def remove : Code K :=
  borrowMut
    (fun core _ =>
      let (core, removed, _) := core.remove key
      (core, removed.isSome))
    fun removed => if removed then runtime (bumpMembership ret) else ret

/-- `keys`, `len`, `is_empty`, `contains_key`: read a signal, then the keys. -/
def readSignal : Code K := runtime look

def move (change : KeyedOrder K Nat → KeyedOrder K Nat × Move) : Code K :=
  borrowMut
    (fun core _ =>
      let (core, outcome) := change core
      (core, outcome.changed))
    fun changed => if changed then bumpOrder ret else ret

/-- The runtime call is the default of the caller. -/
def entryWith : Code K :=
  borrow fun core => release (if core.contains key then ret else runtime (mintWith key ret))

/-- The guard of the lookup is alive while a present cell is set. -/
def set : Code K :=
  borrow fun core =>
    if core.contains key then runtime (release ret) else release (entryWith key)

def dependencyHandle : Code K :=
  borrow fun core => release (if core.contains key then next else insertEntry key next)

def observeDependency : Code K := dependencyHandle key (runtime ret)

/-- `publish` and `unpublish`, which differ in the value they set: the guard of the lookup is alive
while a present cell is set. -/
def publish : Code K :=
  borrow fun core =>
    if core.contains key then runtime (release ret) else release (dependencyHandle key ret)

end Functions

/-! ## Calls -/

inductive MapCall (K : Type) where
  | look
  | readSignal
  | get (key : K)
  | getOrInsertWith (key : K)
  | remove (key : K)
  | moveTo (key : K) (index : Nat)
  | moveBefore (key anchor : K)
  | moveAfter (key anchor : K)
  | entryWith (key : K)
  | set (key : K)
  | observeDependency (key : K)
  | publish (key : K)
  | unpublish (key : K)
  deriving DecidableEq, Repr

/-- A call that waits for the runtime. `holding`: it was made for a key that was present, by one of
the functions that keep their guard. -/
structure Frame (K : Type) where
  holding : Bool
  next : Code K

/-- The map, the guards that are alive, and the calls under way, the innermost first. -/
structure State (K : Type) where
  core : KeyedOrder K Nat
  fresh : Nat
  version : Nat
  orderVersion : Nat
  guards : Nat
  panicked : Bool
  stack : List (Frame K)

inductive Event (K : Type) where
  | call (call : MapCall K)
  | resume

namespace MapCall

variable {K : Type} [DecidableEq K]

def code : MapCall K → Code K
  | .look => ReactiveMap.look
  | .readSignal => ReactiveMap.readSignal
  | .get key => ReactiveMap.get key
  | .getOrInsertWith key => ReactiveMap.getOrInsertWith key
  | .remove key => ReactiveMap.remove key
  | .moveTo key index => move (·.moveTo key index)
  | .moveBefore key anchor => move (·.moveBefore key anchor)
  | .moveAfter key anchor => move (·.moveAfter key anchor)
  | .entryWith key => ReactiveMap.entryWith key
  | .set key => ReactiveMap.set key
  | .observeDependency key => ReactiveMap.observeDependency key
  | .publish key | .unpublish key => ReactiveMap.publish key

/-- The call keeps its guard while the runtime runs. -/
def holds (core : KeyedOrder K Nat) : MapCall K → Bool
  | .getOrInsertWith key | .set key | .publish key | .unpublish key => core.contains key
  | .look | .readSignal | .get _ | .remove _ | .moveTo _ _ | .moveBefore _ _ | .moveAfter _ _
  | .entryWith _ | .observeDependency _ => false

/-- The call neither removes nor moves a key, and finds the one it would insert. -/
def leavesKeys (core : KeyedOrder K Nat) : MapCall K → Bool
  | .look | .readSignal | .get _ => true
  | .remove _ | .moveTo _ _ | .moveBefore _ _ | .moveAfter _ _ => false
  | .getOrInsertWith key | .entryWith key | .set key | .observeDependency key | .publish key
  | .unpublish key => core.contains key

end MapCall

namespace State

variable {K : Type} [DecidableEq K]

def new : State K := ⟨.new, 0, 0, 0, 0, false, []⟩

def bump (s : State K) : Signal → State K
  | .membership => { s with version := (s.version + 1) % UInt64.size }
  | .order => { s with orderVersion := (s.orderVersion + 1) % UInt64.size }

/-- Run up to the next runtime call. A change while a guard is alive panics. -/
def advance : Code K → State K → State K × Option (Code K)
  | .ret, s => (s, none)
  | .runtime next, s => (s, some next)
  | .borrow next, s => advance (next s.core) { s with guards := s.guards + 1 }
  | .release next, s => advance next { s with guards := s.guards - 1 }
  | .borrowMut change next, s =>
    if s.guards = 0 then
      let (core, flag) := change s.core s.fresh
      advance (next flag) { s with core := core, fresh := s.fresh + 1 }
    else ({ s with panicked := true }, none)
  | .version signal next, s => advance next (s.bump signal)

def wait (holding : Bool) (result : State K × Option (Code K)) : State K :=
  match result with
  | (s, some next) => { s with stack := ⟨holding, next⟩ :: s.stack }
  | (s, none) => s

def step (s : State K) (e : Event K) : State K :=
  if s.panicked then s
  else
    match e, s.stack with
    | .call call, _ => wait (call.holds s.core) (advance call.code s)
    | .resume, frame :: rest => wait frame.holding (advance frame.next { s with stack := rest })
    | .resume, [] => s

def run (s : State K) (es : List (Event K)) : State K := es.foldl step s

end State

end Lazily.ReactiveMap
