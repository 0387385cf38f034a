import ConcurrentWebServer.IoHelper
set_option autoImplicit false

/-!
What one `readline` reports of a client's bytes, and how successive calls
divide them. For a `maxlen` up to 2^31 the `int` of `readline` does not wrap.
-/

namespace ConcurrentWebServer
open Execution CStrings Segments

def linePiece (room : Nat) (bytes : List UInt8) : Piece := cut room (fromClient bytes)

@[simp] theorem linePiece_bytes (room : Nat) (bytes : List UInt8) :
    (linePiece room bytes).bytes = takeLine room bytes := by
  rw [linePiece,cut_fromClient]

theorem linePiece_stop (room : Nat) (bytes : List UInt8) :
    (linePiece room bytes).stop =
      if 10 ∈ takeLine room bytes then .newline
      else if (takeLine room bytes).length = room then .full else .eof := by
  rw [linePiece,cut_fromClient]

theorem linePiece_newline {room : Nat} {bytes : List UInt8} :
    (linePiece room bytes).stop = .newline ↔ 10 ∈ takeLine room bytes := by
  rw [linePiece_stop]
  split_ifs <;> simp_all

theorem linePiece_bare {room : Nat} {bytes : List UInt8} (hn : 10 ∉ takeLine room bytes) :
    (linePiece room bytes).bare = true ↔ (takeLine room bytes).length = 1 ∧ room ≠ 1 := by
  rw [Piece.bare,linePiece_stop,linePiece_bytes,if_neg hn]
  split_ifs with hfull
  · simp [hfull]
  · simp only [beq_self_eq_true,Bool.true_and,beq_iff_eq]
    omega

theorem readline_fromClient {bytes : List UInt8} {conn : Conn} (hin : conn.input = fromClient bytes)
    (maxlen : Nat) (buf : List UInt8) :
    readline buf maxlen conn =
      (let p := linePiece (maxlen-1) bytes
       .done (p.count,p.fill buf,
        { conn with input := fromClient (bytes.drop (takeLine (maxlen-1) bytes).length) })) := by
  have hstop : (linePiece (maxlen-1) bytes).stop ≠ .error :=
    cut_fromClient_ne_error (maxlen-1) bytes
  have hrest : (linePiece (maxlen-1) bytes).rest =
      fromClient (bytes.drop (takeLine (maxlen-1) bytes).length) := by
    rw [linePiece,cut_fromClient]
  rw [readline_cut,hin]
  simp only [← hrest]
  exact if_neg hstop

section Result

/-- What the callers of `readline` go by: the bytes it took are in the buffer
as a string, and it returns how many they are. -/
def TruthfulResult (maxlen : Nat) (buf : List UInt8) (conn : Conn) (bytes : List UInt8) : Prop :=
  ∀ d, IsSegment (· == 10) (maxlen-1) bytes d →
    ∃ n buf',
      readline buf maxlen conn =
        .done (n,buf',{ conn with input := fromClient (bytes.drop d.length) }) ∧
      d ++ [0] <+: buf' ∧ n = d.length ∧ (n = 0 ↔ bytes = [])

/-- The count is short after a newline and at the exit `return 0`, and right
everywhere else. -/
theorem count_eq_length {p : Piece} (h : p.stop = .newline → p.bytes ≠ []) :
    p.count = p.bytes.length ↔ p.stop ≠ .newline ∧ p.bare = false := by
  unfold Piece.count
  by_cases hs : p.stop = .newline
  · have hpos := List.length_pos_iff.mpr (h hs)
    rw [if_pos hs]
    constructor
    · intro he
      omega
    · intro he
      exact absurd hs he.1
  · rw [if_neg hs]
    cases hb : p.bare with
    | false => simp [hs]
    | true =>
      have hone : p.bytes.length = 1 := by
        simp only [Piece.bare,Bool.and_eq_true,beq_iff_eq] at hb
        exact hb.2
      simp [hone]

theorem fill_string {p : Piece} (h : p.bare = false) (old : List UInt8) :
    p.bytes ++ [0] <+: p.fill old := by
  rw [Piece.fill,h,if_neg (by simp),strcpy]
  exact ⟨old.drop (p.bytes.length+1),by simp⟩

theorem linePiece_count {room : Nat} {bytes : List UInt8} :
    (linePiece room bytes).count = (takeLine room bytes).length ↔
      10 ∉ bytes.take room ∧ (bytes.length = 1 → room ≤ 1) := by
  have hpiece : (linePiece room bytes).stop = .newline → (linePiece room bytes).bytes ≠ [] := by
    intro h
    rw [linePiece_bytes]
    exact List.ne_nil_of_mem (linePiece_newline.mp h)
  have hcount := count_eq_length hpiece
  rw [linePiece_bytes] at hcount
  rw [hcount,ne_eq,linePiece_newline,not_mem_takeLine]
  refine and_congr_right fun hn => ?_
  rw [← Bool.not_eq_true,linePiece_bare (not_mem_takeLine.mpr hn),takeLine_eq_take hn,
    List.length_take]
  omega

/-- The result of `readline` is truthful exactly for a stream without a line
that ends in the buffer, unless a single byte is all there is. -/
theorem readline_truthful_iff {bytes buf : List UInt8} {maxlen : Nat} {conn : Conn}
    (hin : conn.input = fromClient bytes) (hmax : 2 ≤ maxlen) :
    TruthfulResult maxlen buf conn bytes ↔
      10 ∉ bytes.take (maxlen-1) ∧ (bytes.length = 1 → maxlen = 2) := by
  have hread := readline_fromClient hin maxlen buf
  have hroom : (bytes.length = 1 → maxlen = 2) ↔ (bytes.length = 1 → maxlen-1 ≤ 1) := by omega
  rw [hroom]
  constructor
  · intro h
    obtain ⟨n,buf',he,_,hn,_⟩ := h _ (isSegment_iff.mpr (takeLine_eq_segment (maxlen-1) bytes))
    rw [hread] at he
    have hcount : (linePiece (maxlen-1) bytes).count = n :=
      congrArg Prod.fst (Exec.done.inj he)
    exact linePiece_count.mp (hcount.trans hn)
  · intro h d hd
    have hdt : d = takeLine (maxlen-1) bytes :=
      (isSegment_iff.mp hd).trans (takeLine_eq_segment (maxlen-1) bytes).symm
    have hcount := linePiece_count.mpr h
    have htake := takeLine_eq_take h.1
    have hbare : (linePiece (maxlen-1) bytes).bare = false := by
      rw [← Bool.not_eq_true,linePiece_bare (not_mem_takeLine.mpr h.1),htake,List.length_take]
      omega
    have hfill := fill_string hbare buf
    rw [linePiece_bytes,← hdt] at hfill
    rw [← hdt] at hread hcount
    refine ⟨_,_,hread,hfill,hcount,?_⟩
    rw [hcount,hdt,htake,List.length_take,← List.length_eq_zero_iff]
    omega

def usedBuffer : List UInt8 := List.replicate 8192 7

theorem readline_truthful_unended :
    TruthfulResult 8192 usedBuffer
      (Conn.fresh (fromClient (ascii "GET")) (Stream'.const .all)) (ascii "GET") :=
  (readline_truthful_iff rfl (by decide)).mpr ⟨by decide,by decide⟩

theorem readline_untruthful :
    (∃ conn, readline usedBuffer 8192 (Conn.fresh (fromClient [10]) (Stream'.const .all)) =
      .done (0,10 :: 0 :: List.replicate 8190 7,conn)) ∧
    (∃ conn, readline usedBuffer 8192 (Conn.fresh (fromClient [65]) (Stream'.const .all)) =
      .done (0,65 :: List.replicate 8191 7,conn)) ∧
    ¬ TruthfulResult 8192 usedBuffer (Conn.fresh (fromClient [10]) (Stream'.const .all)) [10] ∧
    ¬ TruthfulResult 8192 usedBuffer (Conn.fresh (fromClient [65]) (Stream'.const .all)) [65] := by
  refine ⟨⟨_,rfl⟩,⟨_,rfl⟩,fun h => ?_,fun h => ?_⟩
  · obtain ⟨n,_,he,_,_,hend⟩ := h [10] (isSegment_iff.mpr rfl)
    have hn : 0 = n := congrArg Prod.fst (Exec.done.inj he)
    exact absurd (hend.mp hn.symm) (by decide)
  · obtain ⟨n,_,he,_,_,hend⟩ := h [65] (isSegment_iff.mpr rfl)
    have hn : 0 = n := congrArg Prod.fst (Exec.done.inj he)
    exact absurd (hend.mp hn.symm) (by decide)

end Result

section Partition

def loopStores : Nat → Conn → List UInt8
  | 0, _ => []
  | room+1, conn =>
      match readOrDie conn with
      | .done (some c,conn) => c :: if c == 10 then [] else loopStores room conn
      | .done (none,_) | .abort | .unfinished => []

def readlineStores (maxlen : Nat) (conn : Conn) : List UInt8 := loopStores (maxlen-1) conn

theorem loopStores_cut (room : Nat) (conn : Conn) :
    loopStores room conn = (cut room conn.input).bytes := by
  induction room generalizing conn with
  | zero => rfl
  | succ room ih =>
    unfold loopStores cut readOrDie
    cases hs : conn.input.head with
    | byte c =>
      by_cases hc : c = 10
      · simp [hc]
      · simp [hc,ih,Piece.push]
    | eof => rfl
    | error => rfl

theorem readlineStores_fromClient {bytes : List UInt8} {conn : Conn}
    (hin : conn.input = fromClient bytes) (maxlen : Nat) :
    readlineStores maxlen conn = firstSegment (· == 10) (maxlen-1) bytes := by
  rw [readlineStores,loopStores_cut,hin,← takeLine_eq_segment]
  exact linePiece_bytes (maxlen-1) bytes

def readlines (maxlen : Nat) : List (List UInt8) → Conn →
    Exec (List (List UInt8 × List UInt8) × Conn)
  | [], conn => .done ([],conn)
  | buf :: bufs, conn => do
      let (_,buf,conn') ← readline buf maxlen conn
      let (calls,conn'') ← readlines maxlen bufs conn'
      pure ((readlineStores maxlen conn,buf) :: calls,conn'')

theorem fill_front (p : Piece) (old : List UInt8) : p.bytes <+: p.fill old := by
  unfold Piece.fill
  split_ifs
  · exact List.prefix_append _ _
  · exact List.prefix_append _ _

theorem readlines_segments {bytes : List UInt8} {conn : Conn} (maxlen : Nat)
    (bufs : List (List UInt8)) (hin : conn.input = fromClient bytes) :
    ∃ calls,
      readlines maxlen bufs conn = .done (calls,{ conn with
        input := fromClient (remainder (· == 10) (maxlen-1) bufs.length bytes) }) ∧
      calls.map Prod.fst = segments (· == 10) (maxlen-1) bufs.length bytes ∧
      ∀ c ∈ calls, c.1 <+: c.2 := by
  induction bufs generalizing bytes conn with
  | nil => exact ⟨[],by simp [readlines,remainder,← hin],rfl,by simp⟩
  | cons buf bufs ih =>
    have hread := readline_fromClient hin maxlen buf
    have hstores := readlineStores_fromClient hin maxlen
    rw [takeLine_eq_segment] at hread
    obtain ⟨conn',hconn'⟩ : ∃ c, c = { conn with
      input := fromClient (bytes.drop (firstSegment (· == 10) (maxlen-1) bytes).length) } := ⟨_,rfl⟩
    have hin' : conn'.input =
        fromClient (bytes.drop (firstSegment (· == 10) (maxlen-1) bytes).length) := by rw [hconn']
    obtain ⟨calls,hcalls,hmap,hfront⟩ := ih hin'
    refine ⟨(readlineStores maxlen conn,(linePiece (maxlen-1) bytes).fill buf) :: calls,
      ?_,?_,?_⟩
    · simp only [readlines,hread,done_bind,← hconn',hcalls,pure_eq,List.length_cons,remainder]
      rw [hconn']
    · rw [List.map_cons,hmap,hstores,List.length_cons,segments]
    · intro c hc
      cases List.mem_cons.mp hc with
      | inl he =>
        have hp := fill_front (linePiece (maxlen-1) bytes) buf
        rw [linePiece_bytes,takeLine_eq_segment,← hstores] at hp
        rw [he]
        exact hp
      | inr hr => exact hfront c hr

/-- Successive calls of `readline` divide the stream: nothing is lost or comes
twice, and a call stops only at its limit, behind a newline, or at the end. -/
theorem readlines_divide {bytes : List UInt8} {conn : Conn} (maxlen : Nat)
    (bufs : List (List UInt8)) (hin : conn.input = fromClient bytes) :
    ∃ calls unread,
      readlines maxlen bufs conn = .done (calls,{ conn with input := fromClient unread }) ∧
      calls.length = bufs.length ∧ (∀ c ∈ calls, c.1 <+: c.2) ∧
      Divides (· == 10) (maxlen-1) bytes (calls.map Prod.fst) unread := by
  obtain ⟨calls,hcalls,hmap,hfront⟩ := readlines_segments maxlen bufs hin
  have hlen := congrArg List.length hmap
  rw [List.length_map,segments_length] at hlen
  refine ⟨calls,_,hcalls,hlen,hfront,?_⟩
  rw [hmap]
  exact segments_divide (maxlen-1) bufs.length bytes

theorem readlines_divide_two :
    ∃ calls unread,
      readlines 3 [[7,7,7],[7,7,7]]
          (Conn.fresh (fromClient (ascii "a\nb")) (Stream'.const .all)) =
        .done (calls,Conn.fresh (fromClient unread) (Stream'.const .all)) ∧
      calls.length = 2 ∧ (∀ c ∈ calls, c.1 <+: c.2) ∧
      Divides (· == 10) 2 (ascii "a\nb") (calls.map Prod.fst) unread :=
  readlines_divide 3 [[7,7,7],[7,7,7]] rfl

end Partition

end ConcurrentWebServer
