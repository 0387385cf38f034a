import ConcurrentWebServer.CStrings
import ConcurrentWebServer.Execution
import ConcurrentWebServer.Segments
import Mathlib.Data.Stream.Init
set_option autoImplicit false

/-! io_helper.c and io_helper.h: a connection seen through `read`, `write` and
`close`, and `readline`. -/

namespace ConcurrentWebServer
open Execution CStrings Segments

inductive Received where
  | byte : UInt8 → Received
  | eof : Received
  | error : Received
  deriving DecidableEq, Repr

inductive Accepted where
  | all : Accepted
  | atMost : Nat → Accepted
  | error : Accepted
  deriving DecidableEq, Repr

/-- How far a `write` goes into the `n` bytes it is given. -/
def Accepted.reach (n : Nat) : Accepted → Nat
  | .all => n
  | .atMost k => min k n
  | .error => 0

theorem Accepted.reach_le (n : Nat) (a : Accepted) : a.reach n ≤ n := by
  cases a with
  | all => exact Nat.le_refl n
  | atMost k => exact Nat.min_le_right k n
  | error => exact Nat.zero_le n

/-- A connection: what its reads and writes will find, one after the other,
and the bytes its client has been sent. -/
structure Conn where
  input : Stream' Received
  outcomes : Stream' Accepted
  sent : List UInt8
  isOpen : Bool

def Conn.fresh (input : Stream' Received) (outcomes : Stream' Accepted) : Conn :=
  ⟨input,outcomes,[],true⟩

/-- `read_or_die(fd, &c, 1)`, with `none` for a `0`. -/
def readOrDie (conn : Conn) : Exec (Option UInt8 × Conn) :=
  match conn.input.head with
  | .byte c => pure (some c,{ conn with input := conn.input.tail })
  | .eof => pure (none,{ conn with input := conn.input.tail })
  | .error => .abort

/-- `write_or_die(fd, p, n)`; no caller looks at how much was taken. -/
def writeOrDie (conn : Conn) (p : List UInt8) : Exec Conn :=
  match conn.outcomes.head with
  | .all => pure { conn with outcomes := conn.outcomes.tail, sent := conn.sent ++ p }
  | .atMost k => pure { conn with outcomes := conn.outcomes.tail, sent := conn.sent ++ p.take k }
  | .error => .abort

def closeOrDie (conn : Conn) : Exec Conn := do
  check conn.isOpen
  pure { conn with isOpen := false }

/-- The loop of `readline`, from `n` on, where `bufp` is `buf + n`. `room` is
how often `n` may still grow; `read_or_die` never gives the `return -1`. -/
def readlineLoop : Nat → Nat → List UInt8 → Conn → Exec (Nat × List UInt8 × Conn)
  | 0, n, buf, conn => pure (n,poke buf n 0,conn)
  | room+1, n, buf, conn => do
      let (rc,conn) ← readOrDie conn
      match rc with
      | some c =>
          let buf := poke buf n c
          if c == 10 then pure (n,poke buf (n+1) 0,conn)
          else readlineLoop room (n+1) buf conn
      | none => if n == 1 then pure (0,buf,conn) else pure (n,poke buf n 0,conn)

def readline (buf : List UInt8) (maxlen : Nat) (conn : Conn) :
    Exec (Nat × List UInt8 × Conn) :=
  readlineLoop (maxlen-1) 0 buf conn

section Writes

def writeAll : Conn → List (List UInt8) → Exec Conn
  | conn, [] => .done conn
  | conn, p :: ps => do
      let conn ← writeOrDie conn p
      writeAll conn ps

theorem writeAll_error (conn : Conn) {ps : List (List UInt8)}
    (h : ∃ i < ps.length, conn.outcomes.get i = .error) : writeAll conn ps = .abort := by
  induction ps generalizing conn with
  | nil => simp at h
  | cons p ps ih =>
    obtain ⟨i,hi,he⟩ := h
    cases i with
    | zero =>
      have hh : conn.outcomes.head = .error := he
      simp [writeAll,writeOrDie,hh]
    | succ i =>
      have hrest : ∃ i < ps.length, conn.outcomes.tail.get i = .error :=
        ⟨i,by simpa using hi,he⟩
      cases hh : conn.outcomes.head with
      | error => simp [writeAll,writeOrDie,hh]
      | all =>
        simp only [writeAll,writeOrDie,hh,pure_eq,done_bind]
        exact ih _ hrest
      | atMost k =>
        simp only [writeAll,writeOrDie,hh,pure_eq,done_bind]
        exact ih _ hrest

theorem writeAll_done (conn : Conn) {ps : List (List UInt8)}
    (h : ∀ i < ps.length, conn.outcomes.get i ≠ .error) :
    ∃ sent, writeAll conn ps =
      .done { conn with outcomes := conn.outcomes.drop ps.length, sent := sent } := by
  induction ps generalizing conn with
  | nil => exact ⟨conn.sent,rfl⟩
  | cons p ps ih =>
    have hrest : ∀ i < ps.length, conn.outcomes.tail.get i ≠ .error :=
      fun i hi => h (i+1) (by simpa using hi)
    cases hh : conn.outcomes.head with
    | error => exact absurd hh (h 0 (by simp))
    | all =>
      obtain ⟨sent,hs⟩ := ih
        { conn with outcomes := conn.outcomes.tail, sent := conn.sent ++ p } hrest
      exact ⟨sent,by simp [writeAll,writeOrDie,hh,hs]⟩
    | atMost k =>
      obtain ⟨sent,hs⟩ := ih
        { conn with outcomes := conn.outcomes.tail, sent := conn.sent ++ p.take k } hrest
      exact ⟨sent,by simp [writeAll,writeOrDie,hh,hs]⟩

theorem writeAll_const (conn : Conn) (h : conn.outcomes = Stream'.const .all)
    (ps : List (List UInt8)) :
    writeAll conn ps = .done { conn with sent := conn.sent ++ ps.flatten } := by
  induction ps generalizing conn with
  | nil => simp [writeAll]
  | cons p ps ih =>
    have hh : conn.outcomes.head = .all := by rw [h]; rfl
    have ht : conn.outcomes.tail = conn.outcomes := by rw [h]; rfl
    simp only [writeAll,writeOrDie,hh,ht,pure_eq,done_bind]
    rw [ih { conn with sent := conn.sent ++ p } h]
    simp

end Writes

section Pieces

inductive Stop where
  | newline : Stop
  | full : Stop
  | eof : Stop
  | error : Stop
  deriving DecidableEq, Repr

structure Piece where
  bytes : List UInt8
  stop : Stop
  rest : Stream' Received

def Piece.push (c : UInt8) (p : Piece) : Piece := { p with bytes := c :: p.bytes }

def cut : Nat → Stream' Received → Piece
  | 0, s => ⟨[],.full,s⟩
  | room+1, s =>
      match s.head with
      | .byte c => if c == 10 then ⟨[c],.newline,s.tail⟩ else (cut room s.tail).push c
      | .eof => ⟨[],.eof,s.tail⟩
      | .error => ⟨[],.error,s.tail⟩

/-- The exit `return 0`, which writes no NUL. -/
def Piece.bare (p : Piece) : Bool := p.stop == .eof && p.bytes.length == 1

def Piece.count (p : Piece) : Nat :=
  if p.stop = .newline then p.bytes.length-1
  else if p.bare then 0 else p.bytes.length

def Piece.fill (p : Piece) (old : List UInt8) : List UInt8 :=
  if p.bare then p.bytes ++ old.drop 1 else strcpy old p.bytes

theorem readlineLoop_cut (old : List UInt8) (room : Nat) (d : List UInt8) (conn : Conn) :
    readlineLoop room d.length (d ++ old.drop d.length) conn =
      (let p := cut room conn.input
       let q : Piece := { p with bytes := d ++ p.bytes }
       if p.stop = .error then .abort
       else .done (q.count,q.fill old,{ conn with input := p.rest })) := by
  induction room generalizing d conn with
  | zero => simp [readlineLoop,cut,Piece.count,Piece.fill,Piece.bare,strcpy_eq_poke]
  | succ room ih =>
    cases hs : conn.input.head with
    | byte c =>
      have hpoke : poke (d ++ old.drop d.length) d.length c =
          (d ++ [c]) ++ old.drop (d ++ [c]).length := by
        simp [poke_append,List.drop_drop]
      by_cases hc : c = 10
      · subst hc
        simp only [readlineLoop,readOrDie,hs,pure_eq,done_bind,beq_self_eq_true,if_true,cut,
          reduceCtorEq,if_false,Piece.count,Piece.fill,Piece.bare]
        have hz := strcpy_eq_poke (d ++ [10]) old
        rw [List.length_append,List.length_singleton] at hz
        rw [hpoke,List.length_append,List.length_singleton,hz]
        simp
      · have hi := ih (d ++ [c]) { conn with input := conn.input.tail }
        rw [List.length_append,List.length_singleton] at hi
        simp only [readlineLoop,readOrDie,hs,pure_eq,done_bind,beq_iff_eq,hc,if_false,cut]
        rw [hpoke,List.length_append,List.length_singleton,hi]
        simp only [Piece.push,List.append_assoc,List.singleton_append]
        rfl
    | eof =>
      by_cases hd : d.length = 1
      · simp [readlineLoop,readOrDie,hs,cut,Piece.count,Piece.fill,Piece.bare,hd]
      · simp [readlineLoop,readOrDie,hs,cut,Piece.count,Piece.fill,Piece.bare,hd,strcpy_eq_poke]
    | error => simp [readlineLoop,readOrDie,hs,cut]

theorem readline_cut (buf : List UInt8) (maxlen : Nat) (conn : Conn) :
    readline buf maxlen conn =
      (let p := cut (maxlen-1) conn.input
       if p.stop = .error then .abort
       else .done (p.count,p.fill buf,{ conn with input := p.rest })) := by
  simpa [readline] using readlineLoop_cut buf (maxlen-1) [] conn

def fromClient (bytes : List UInt8) : Stream' Received :=
  bytes.map .byte ++ₛ Stream'.const .eof

@[simp] theorem fromClient_nil_head : (fromClient []).head = .eof := rfl

@[simp] theorem fromClient_nil_tail : (fromClient []).tail = fromClient [] := rfl

@[simp] theorem fromClient_cons_head (c : UInt8) (r : List UInt8) :
    (fromClient (c :: r)).head = .byte c := rfl

@[simp] theorem fromClient_cons_tail (c : UInt8) (r : List UInt8) :
    (fromClient (c :: r)).tail = fromClient r := rfl

def takeLine : Nat → List UInt8 → List UInt8
  | 0, _ => []
  | _+1, [] => []
  | room+1, c :: r => if c == 10 then [c] else c :: takeLine room r

@[simp] theorem takeLine_nil (room : Nat) : takeLine room [] = [] := by
  cases room <;> rfl

theorem cut_fromClient (room : Nat) (bytes : List UInt8) :
    cut room (fromClient bytes) =
      { bytes := takeLine room bytes
        stop := if 10 ∈ takeLine room bytes then .newline
          else if (takeLine room bytes).length = room then .full else .eof
        rest := fromClient (bytes.drop (takeLine room bytes).length) } := by
  induction room generalizing bytes with
  | zero => simp [cut,takeLine]
  | succ room ih =>
    cases bytes with
    | nil => simp [cut,takeLine]
    | cons c r =>
      by_cases hc : c = 10
      · simp [cut,takeLine,hc]
      · simp [cut,takeLine,hc,Ne.symm hc,ih,Piece.push]

theorem cut_fromClient_ne_error (room : Nat) (bytes : List UInt8) :
    (cut room (fromClient bytes)).stop ≠ .error := by
  rw [cut_fromClient]
  split_ifs <;> simp

theorem takeLine_eq_segment (room : Nat) (bytes : List UInt8) :
    takeLine room bytes = firstSegment (· == 10) room bytes := by
  fun_induction takeLine room bytes with
  | case1 bytes => rfl
  | case2 room => rfl
  | case3 room c r hc => rw [firstSegment,if_pos hc]
  | case4 room c r hc ih => rw [firstSegment,if_neg hc,ih]

theorem takeLine_length_le (room : Nat) (bytes : List UInt8) :
    (takeLine room bytes).length ≤ bytes.length := by
  rw [takeLine_eq_segment]
  exact (firstSegment_front room bytes).length_le

theorem not_mem_takeLine {room : Nat} {bytes : List UInt8} :
    10 ∉ takeLine room bytes ↔ 10 ∉ bytes.take room := by
  have hclear : ∀ d : List UInt8, (∀ x ∈ d, (x == 10) = false) ↔ 10 ∉ d := by
    intro d
    simp only [beq_eq_false_iff_ne,ne_eq]
    exact ⟨fun h hd => h 10 hd rfl,fun h x hx he => h (he ▸ hx)⟩
  rw [← hclear,← hclear,takeLine_eq_segment]
  exact firstSegment_clear_iff

theorem takeLine_eq_take {room : Nat} {bytes : List UInt8} (hn : 10 ∉ bytes.take room) :
    takeLine room bytes = bytes.take room := by
  rw [takeLine_eq_segment]
  refine firstSegment_eq_take fun x hx => ?_
  rw [beq_eq_false_iff_ne]
  exact ne_of_mem_of_not_mem hx hn

theorem takeLine_of_not_mem {room : Nat} {bytes : List UInt8} (hn : 10 ∉ bytes)
    (hl : bytes.length ≤ room) : takeLine room bytes = bytes := by
  have htake : bytes.take room = bytes := List.take_of_length_le hl
  rw [takeLine_eq_take (by rwa [htake]),htake]

theorem takeLine_all {room : Nat} {bytes : List UInt8} (hn : 10 ∉ takeLine room bytes)
    (hl : (takeLine room bytes).length ≠ room) : takeLine room bytes = bytes := by
  have htake := takeLine_eq_take (not_mem_takeLine.mp hn)
  rw [htake,List.length_take] at hl
  rw [htake,List.take_of_length_le (by omega)]

end Pieces

end ConcurrentWebServer
