import ConcurrentWebServer.Execution
import ConcurrentWebServer.CircularArray
set_option autoImplicit false

/-! The shared buffer of buffer.c, without its mutex and conditions. Entries
are of any type `α` with a `filesize`, the only field the buffer looks at. -/

namespace ConcurrentWebServer.Queueing
open Execution

inductive SchedPolicy where
  | fifo : SchedPolicy
  | sff : SchedPolicy
  deriving DecidableEq, Repr

def InInt (z : Int) : Prop := -2^31 ≤ z ∧ z < 2^31

/-- What an `int` holds of a sum. The language leaves a sum out of range
undefined; as compiled it wraps. -/
def int (z : Int) : Int := z.bmod (2^32)

theorem int_eq {z : Int} (h : InInt z) : int z = z := by
  unfold InInt at h
  rw [int,Int.bmod_def]
  split_ifs <;> omega

/-- The static variables of buffer.c. `cap` and `count` are natural: `count` is
changed by one at a time and never leaves the range from 0 to `cap`. An index
can leave the array, and then names a cell of the heap next to it. -/
structure Buffer (α : Type) where
  slots : Int → α
  cap : Nat
  count : Nat
  head : Int
  tail : Int
  sched : SchedPolicy

section Model

variable {α : Type}

/-- `malloced` is what the freshly allocated array happens to hold. -/
def bufferInit (malloced : Int → α) (capacity : Nat) (policy : SchedPolicy) :
    Exec (Buffer α) := do
  check (decide (capacity > 0))
  pure { cap := capacity, sched := policy, count := 0, head := 0, tail := 0, slots := malloced }

def Buffer.full (b : Buffer α) : Bool := b.count == b.cap

def Buffer.empty (b : Buffer α) : Bool := b.count == 0

/-- `buffer_put` once the buffer is not full. -/
def bufferPut (b : Buffer α) (req : α) : Buffer α :=
  { b with
    slots := Function.update b.slots b.tail req
    tail := (int (b.tail+1)).tmod b.cap
    count := b.count+1 }

structure Scan where
  minLogical : Nat
  minSize : Int
  deriving DecidableEq, Repr

variable (filesize : α → Int)

def Buffer.scanStep (b : Buffer α) (s : Scan) (i : Nat) : Scan :=
  let idx := (int (b.head+i)).tmod b.cap
  if filesize (b.slots idx) < s.minSize then ⟨i,filesize (b.slots idx)⟩ else s

def Buffer.scan (b : Buffer α) : Scan :=
  (List.range' 1 (b.count-1)).foldl (b.scanStep filesize) ⟨0,filesize (b.slots b.head)⟩

def Buffer.minPhys (b : Buffer α) : Int :=
  (int (b.head+(b.scan filesize).minLogical)).tmod b.cap

structure Shift (α : Type) where
  slots : Int → α
  cur : Int
  next : Int

def Shift.step (cap : Nat) (s : Shift α) : Shift α :=
  { slots := Function.update s.slots s.cur (s.slots s.next)
    cur := s.next
    next := (int (s.next+1)).tmod cap }

def Buffer.shiftStart (b : Buffer α) : Shift α :=
  ⟨b.slots,b.minPhys filesize,(int (b.minPhys filesize+1)).tmod b.cap⟩

/-- `while (next != tail)`. As many rounds as there are slots, and as many
again where `next` starts below the array, go through all its values. -/
def Buffer.compact (b : Buffer α) : Exec (Shift α) :=
  loop (fun s => s.next != b.tail) (fun s => .done (s.step b.cap)) (2*b.cap)
    (b.shiftStart filesize)

/-- `buffer_get` once the buffer is not empty. -/
def bufferGet (b : Buffer α) : Exec (α × Buffer α) :=
  match b.sched with
  | .fifo =>
      pure (b.slots b.head,{ b with head := (int (b.head+1)).tmod b.cap, count := b.count-1 })
  | .sff => do
      let s ← b.compact filesize
      pure (b.slots (b.minPhys filesize),
        { b with
          slots := s.slots
          tail := (int (b.tail-1+b.cap)).tmod b.cap
          count := b.count-1 })

def Shift.reads (cap : Nat) (tail : Int) : Nat → Shift α → List Int
  | 0, _ => []
  | fuel+1, s => if s.next != tail then s.next :: (s.step cap).reads cap tail fuel else []

def bufferGetReads (b : Buffer α) : List Int :=
  match b.sched with
  | .fifo => [b.head]
  | .sff =>
      b.head :: (List.range' 1 (b.count-1)).map (fun i : Nat => (int (b.head+i)).tmod b.cap) ++
        b.minPhys filesize :: (b.shiftStart filesize).reads b.cap b.tail (2*b.cap)

end Model

end ConcurrentWebServer.Queueing
