import ConcurrentWebServer.RequestModel
set_option autoImplicit false

/-! The head of a request: the lines `readline` makes of it, and when
`request_read_headers` finds its end. -/

namespace ConcurrentWebServer.Requests
open Execution CStrings

def IsLine (b : List UInt8) : Prop := ∀ a e, b = a ++ 10 :: e → e = []

theorem IsLine.tail {c : UInt8} {b : List UInt8} (h : IsLine (c :: b)) : IsLine b := by
  intro a e hb
  exact h (c :: a) e (by rw [hb]; rfl)

theorem IsLine.cstr_eq {b t : List UInt8} (h : IsLine b) (ht : 0 ∉ t) :
    cstr b = t ++ [10] ↔ b = t ++ [10] := by
  constructor
  · intro hb
    have hp : t ++ [10] <+: b := hb ▸ List.takeWhile_prefix _
    obtain ⟨r,hr⟩ := hp
    rw [List.append_assoc] at hr
    rw [← hr,h t r hr.symm]
    rfl
  · rintro rfl
    exact cstr_of_not_mem (by simp [ht])

theorem isLine_nil : IsLine [] := by
  intro a e h
  simp at h

theorem isLine_singleton (c : UInt8) : IsLine [c] := by
  intro a e h
  cases a with
  | nil => exact (List.cons.inj h).2.symm
  | cons x a => simp at h

theorem IsLine.cons {c : UInt8} {b : List UInt8} (h : IsLine b) (hc : c ≠ 10) :
    IsLine (c :: b) := by
  intro a e hb
  cases a with
  | nil => exact absurd (List.cons.inj hb).1 hc
  | cons x a => exact h a e (List.cons.inj hb).2

theorem cut_isLine (room : Nat) (s : Stream' Received) : IsLine (cut room s).bytes := by
  fun_induction cut room s with
  | case1 s => exact isLine_nil
  | case2 room s c hs hc => exact isLine_singleton c
  | case3 room s c hs hc ih => exact ih.cons (by simpa using hc)
  | case4 room s hs => exact isLine_nil
  | case5 room s hs => exact isLine_nil

theorem cut_newline (room : Nat) (s : Stream' Received) :
    (cut room s).stop = .newline ↔ 10 ∈ (cut room s).bytes := by
  fun_induction cut room s with
  | case1 s => simp
  | case2 room s c hs hc => simpa using (eq_of_beq hc).symm
  | case3 room s c hs hc ih =>
    have hne : 10 ≠ c := by
      intro he
      exact hc (by rw [← he]; rfl)
    simpa [Piece.push,hne] using ih
  | case4 room s hs => simp
  | case5 room s hs => simp

theorem cut_full {room : Nat} {s : Stream' Received} (h : (cut room s).stop = .full) :
    (cut room s).bytes.length = room := by
  fun_induction cut room s with
  | case1 s => rfl
  | case2 room s c hs hc => cases h
  | case3 room s c hs hc ih => exact congrArg Nat.succ (ih h)
  | case4 room s hs => cases h
  | case5 room s hs => cases h

def crlf : List UInt8 := ascii "\r\n"

theorem crlf_eq : crlf = [13] ++ [10] := rfl

def headLine (s : Stream' Received) : Piece := cut (MAXBUF-1) s

theorem headLine_isLine (s : Stream' Received) : IsLine (headLine s).bytes := cut_isLine _ s

theorem headLine_newline (s : Stream' Received) :
    (headLine s).stop = .newline ↔ 10 ∈ (headLine s).bytes := cut_newline _ s

theorem headLine_full {s : Stream' Received} (h : (headLine s).stop = .full) :
    (headLine s).bytes.length = MAXBUF-1 := cut_full h

theorem bare_iff {p : Piece} : p.bare = true ↔ p.stop = .eof ∧ p.bytes.length = 1 := by
  simp [Piece.bare]

def Stale (a : List UInt8) : Prop := cstr (a.drop 1) = [10]

/-- The buffer reads CR LF: such a line has come, or a lone CR at the end of
the stream, in front of what an older line has left. -/
theorem fill_eq_crlf {p : Piece} (hp : IsLine p.bytes) (old : List UInt8) :
    cstr (p.fill old) = crlf ↔
      p.bytes = crlf ∨ (p.bare = true ∧ p.bytes = [13] ∧ Stale old) := by
  cases hb : p.bare with
  | false =>
    have hz : (0 : UInt8) ∉ [13] := by decide
    simpa [Piece.fill,hb,crlf_eq] using hp.cstr_eq hz
  | true =>
    obtain ⟨c,hc⟩ := List.length_eq_one_iff.mp (bare_iff.mp hb).2
    have hne : ¬ [c] = crlf := by simp [crlf,ascii]
    have hcr : cstr (c :: old.drop 1) = crlf ↔ ∃ b, c :: old.drop 1 = 13 :: b ∧ cstr b = [10] :=
      cstr_eq_cons (by decide)
    simp only [Piece.fill,hb,if_true,hc,hne,false_or,true_and,List.singleton_append,hcr,
      List.cons.injEq,and_true,Stale]
    constructor
    · rintro ⟨b,⟨rfl,rfl⟩,h⟩
      exact ⟨rfl,h⟩
    · rintro ⟨rfl,h⟩
      exact ⟨_,⟨rfl,rfl⟩,h⟩

theorem stale_fill {s : Stream' Received} (hs : (headLine s).stop ≠ .error) (old : List UInt8) :
    Stale ((headLine s).fill old) ↔
      ((headLine s).stop = .eof ∧ (headLine s).bytes.length ≤ 1 ∧ Stale old) ∨
        ∃ x, (headLine s).bytes = [x,10] := by
  have hline := headLine_isLine s
  have hnl := headLine_newline s
  have hfull := headLine_full (s := s)
  generalize headLine s = p at *
  match hb : p.bytes with
  | [] =>
    have heof : p.stop = .eof := by
      cases hstop : p.stop with
      | newline => simp [hstop,hb] at hnl
      | full => simp [hb,MAXBUF] at hfull; contradiction
      | eof => rfl
      | error => exact absurd hstop hs
    simp [Piece.fill,Piece.bare,hb,heof,Stale,strcpy]
  | [x] =>
    by_cases hbare : p.bare = true
    · simp [Piece.fill,hbare,hb,Stale,(bare_iff.mp hbare).1]
    · have hne : p.stop ≠ .eof := by
        intro heof
        exact hbare (bare_iff.mpr ⟨heof,by simp [hb]⟩)
      simp [Piece.fill,hbare,hb,Stale,strcpy,hne,cstr]
  | x :: y :: t =>
    have hnb : p.bare = false := by simp [Piece.bare,hb]
    rw [hb] at hline
    have ht : cstr (y :: t) = [] ++ [10] ↔ y :: t = [] ++ [10] := hline.tail.cstr_eq (by simp)
    rw [← cstr_append_zero _ (old.drop (t.length+1+1+1))] at ht
    simpa [Piece.fill,hnb,hb,Stale,strcpy] using ht

/-- The lines up to a buffer that reads CR LF, none of them cut short by an
error, and the input behind them. -/
inductive HeadEnds : List UInt8 → Stream' Received → Stream' Received → Prop where
  | last {buf : List UInt8} {s : Stream' Received} :
      (headLine s).stop ≠ .error → cstr ((headLine s).fill buf) = crlf →
      HeadEnds buf s (headLine s).rest
  | next {buf : List UInt8} {s r : Stream' Received} :
      (headLine s).stop ≠ .error → cstr ((headLine s).fill buf) ≠ crlf →
      HeadEnds ((headLine s).fill buf) (headLine s).rest r → HeadEnds buf s r

theorem readline_headLine (buf : List UInt8) (conn : Conn) :
    readline buf MAXBUF conn =
      if (headLine conn.input).stop = .error then .abort
      else .done ((headLine conn.input).count,(headLine conn.input).fill buf,
        { conn with input := (headLine conn.input).rest }) :=
  readline_cut buf MAXBUF conn

theorem requestReadHeaders_step (buf : List UInt8) (fuel : Nat) (conn : Conn) :
    requestReadHeaders buf fuel conn =
      if (headLine conn.input).stop = .error then .abort
      else if cstr ((headLine conn.input).fill buf) = crlf then
        .done { conn with input := (headLine conn.input).rest }
      else match fuel with
        | 0 => .unfinished
        | fuel+1 => requestReadHeaders ((headLine conn.input).fill buf) fuel
            { conn with input := (headLine conn.input).rest } := by
  by_cases he : (headLine conn.input).stop = .error
  · simp [requestReadHeaders,readline_headLine,he]
  · by_cases hb : cstr ((headLine conn.input).fill buf) = crlf
    · have hc : cstr ((headLine conn.input).fill buf) = ascii "\r\n" := hb
      simp only [requestReadHeaders,readline_headLine,he,if_false,done_bind,hb,if_true]
      rw [loop_stop _ _ (by simp [hc])]
      rfl
    · have hc : ¬ cstr ((headLine conn.input).fill buf) = ascii "\r\n" := hb
      cases fuel with
      | zero => simp [requestReadHeaders,readline_headLine,he,hb,hc,loop]
      | succ fuel =>
        simp only [requestReadHeaders,readline_headLine,he,if_false,done_bind,hb,loop,bne_iff_ne,
          ne_eq,hc,not_false_eq_true,if_true]
        split
        · rfl
        · rfl

theorem requestReadHeaders_ends {buf : List UInt8} {fuel : Nat} {conn conn' : Conn}
    (h : requestReadHeaders buf fuel conn = .done conn') :
    ∃ r, HeadEnds buf conn.input r ∧ conn' = { conn with input := r } := by
  induction fuel generalizing buf conn with
  | zero =>
    rw [requestReadHeaders_step] at h
    split_ifs at h with he hb
    cases h
    exact ⟨_,.last he hb,rfl⟩
  | succ fuel ih =>
    rw [requestReadHeaders_step] at h
    split_ifs at h with he hb
    · cases h
      exact ⟨_,.last he hb,rfl⟩
    · obtain ⟨r,hr,rfl⟩ := ih h
      exact ⟨r,.next he hb hr,rfl⟩

theorem HeadEnds.done {buf : List UInt8} {s r : Stream' Received} (h : HeadEnds buf s r) :
    ∃ fuel, ∀ conn : Conn, conn.input = s →
      requestReadHeaders buf fuel conn = .done { conn with input := r } := by
  induction h with
  | last he hb =>
    refine ⟨0,fun conn hs => ?_⟩
    subst hs
    rw [requestReadHeaders_step,if_neg he,if_pos hb]
  | next he hb _ ih =>
    obtain ⟨fuel,hf⟩ := ih
    refine ⟨fuel+1,fun conn hs => ?_⟩
    subst hs
    rw [requestReadHeaders_step,if_neg he,if_neg hb]
    exact hf _ rfl

theorem requestReadHeaders_returns {buf : List UInt8} {conn : Conn} :
    (∃ fuel conn', requestReadHeaders buf fuel conn = .done conn') ↔
      ∃ r, HeadEnds buf conn.input r := by
  constructor
  · rintro ⟨fuel,conn',h⟩
    obtain ⟨r,hr,_⟩ := requestReadHeaders_ends h
    exact ⟨r,hr⟩
  · rintro ⟨r,hr⟩
    obtain ⟨fuel,hf⟩ := hr.done
    exact ⟨fuel,_,hf conn rfl⟩

theorem headEnds_step {buf : List UInt8} {s : Stream' Received} :
    (∃ r, HeadEnds buf s r) ↔ (headLine s).stop ≠ .error ∧
      (cstr ((headLine s).fill buf) = crlf ∨
        ∃ r, HeadEnds ((headLine s).fill buf) (headLine s).rest r) := by
  constructor
  · rintro ⟨r,hr⟩
    cases hr with
    | last he hb => exact ⟨he,.inl hb⟩
    | next he _ hr => exact ⟨he,.inr ⟨_,hr⟩⟩
  · rintro ⟨he,h⟩
    by_cases hb : cstr ((headLine s).fill buf) = crlf
    · exact ⟨_,.last he hb⟩
    · obtain ⟨r,hr⟩ := h.resolve_left hb
      exact ⟨r,.next he hb hr⟩

theorem HeadEnds.unique {buf : List UInt8} {s r r' : Stream' Received} (h : HeadEnds buf s r)
    (h' : HeadEnds buf s r') : r = r' := by
  induction h with
  | last _ hb =>
    cases h' with
    | last _ _ => rfl
    | next _ hb' _ => exact absurd hb hb'
  | next _ hb _ ih =>
    cases h' with
    | last _ hb' => exact absurd hb' hb
    | next _ _ hr' => exact ih hr'

end ConcurrentWebServer.Requests
