import ConcurrentWebServer.Execution
import Mathlib.Data.Stream.Init
set_option autoImplicit false

/-!
load_client.py. Numbers are of a type `F` of which nothing is assumed but its
operations, and the random generator is a machine with states of a type `G`.
-/

namespace ConcurrentWebServer.LoadClient
open Execution

inductive FileType where
  | small : FileType
  | large : FileType
  deriving DecidableEq, Repr

structure Task (F : Type) where
  uri : String
  ftype : FileType
  now : F
  deriving DecidableEq, Repr

def Task.request {F : Type} (task : Task F) : String × FileType := (task.uri,task.ftype)

structure Row (F : Type) where
  tsMs : F
  ftype : FileType
  uri : String
  lat : F
  status : Int
  size : Nat
  deriving DecidableEq, Repr

def Row.request {F : Type} (row : Row F) : String × FileType := (row.uri,row.ftype)

/-- The row of a task; `http_get` raises for `none`. -/
def workerRow {F : Type} [Neg F] [OfScientific F] (task : Task F) (tsMs : F) :
    Option (F × Int × Nat) → Row F
  | some (lat,status,size) => ⟨tsMs,task.ftype,task.uri,lat,status,size⟩
  | none => ⟨tsMs,task.ftype,task.uri,-1.0,0,0⟩

structure Generator (G F : Type) where
  random : G → F × G
  choice : G → { uris : List String // uris ≠ [] } → String × G

inductive Effect (F : Type) where
  | put : Task F → Effect F
  | sleep : F → Effect F
  | set : Effect F

def Effect.request {F : Type} : Effect F → Option (String × FileType)
  | .put task => some task.request
  | .sleep _ | .set => none

structure Campaign (F : Type) where
  smallUris : { uris : List String // uris ≠ [] }
  largeUris : { uris : List String // uris ≠ [] }
  smallRatio : F
  rate : F
  duration : F

/-- The variables of `dispatcher_fn`; `clock` is what `time.perf_counter()` has
yet to return. -/
structure Dispatcher (F G : Type) where
  tokens : F
  lastTick : F
  gen : G
  clock : Stream' F
  effects : List (Effect F)

def Dispatcher.requests {F G : Type} (d : Dispatcher F G) : List (String × FileType) :=
  d.effects.filterMap Effect.request

section Dispatch

variable {F G : Type} [Add F] [Sub F] [Mul F] [Div F] [OfScientific F] [LT F] [DecidableLT F]
  [LE F] [DecidableLE F]

def pyMin (a b : F) : F := if b < a then b else a

def chooseFile (rng : Generator G F) (c : Campaign F) (gen : G) : (String × FileType) × G :=
  let (draw,gen) := rng.random gen
  if draw < c.smallRatio then
    let (uri,gen) := rng.choice gen c.smallUris
    ((uri,.small),gen)
  else
    let (uri,gen) := rng.choice gen c.largeUris
    ((uri,.large),gen)

/-- The body of the loop behind its `break`. -/
def dispatchRound (rng : Generator G F) (c : Campaign F) (d : Dispatcher F G) : Dispatcher F G :=
  let interval := 1.0/c.rate
  let now := d.clock.head
  let elapsed := now-d.lastTick
  let tokens := pyMin (d.tokens+elapsed*c.rate) c.rate
  if (1.0 : F) ≤ tokens then
    let ((uri,ftype),gen) := chooseFile rng c d.gen
    { tokens := tokens-1.0
      lastTick := now
      gen := gen
      clock := d.clock.tail
      effects := d.effects ++ [.put ⟨uri,ftype,now⟩] }
  else
    { d with
      tokens := tokens
      lastTick := now
      clock := d.clock.tail
      effects := d.effects ++ [.sleep (interval*0.5)] }

/-- The first two readings of the clock are for `deadline` and `last_tick`. -/
def Dispatcher.start (gen : G) (clock : Stream' F) : Dispatcher F G where
  tokens := 1.0
  lastTick := clock.tail.head
  gen := gen
  clock := clock.tail.tail
  effects := []

def beforeDeadline (deadline : F) (d : Dispatcher F G) : Bool := !decide (deadline ≤ d.clock.head)

def dispatcherFn (rng : Generator G F) (c : Campaign F) (gen : G) (clock : Stream' F)
    (fuel : Nat) : Exec (Dispatcher F G) := do
  let deadline := clock.head+c.duration
  let d ← loop (beforeDeadline deadline) (fun d => .done (dispatchRound rng c d)) fuel
    (.start gen clock)
  pure { d with effects := d.effects ++ [.set] }

end Dispatch

end ConcurrentWebServer.LoadClient
