import ConcurrentWebServer.RequestHead
set_option autoImplicit false

/-! When draining the headers comes to an end, for a client that sends finitely
many bytes. -/

namespace ConcurrentWebServer.Requests
open Execution CStrings

theorem takeLine_length_pos {bytes : List UInt8} (h : bytes ≠ []) :
    0 < (takeLine (MAXBUF-1) bytes).length := by
  cases bytes with
  | nil => exact absurd rfl h
  | cons c r =>
    change 0 < (takeLine (8190+1) (c :: r)).length
    by_cases hc : c = 10 <;> simp [takeLine,hc]

def pieces (bytes : List UInt8) : List (List UInt8) :=
  if h : bytes = [] then []
  else
    takeLine (MAXBUF-1) bytes :: pieces (bytes.drop (takeLine (MAXBUF-1) bytes).length)
termination_by bytes.length
decreasing_by
  have h₁ := takeLine_length_pos h
  have h₂ : 0 < bytes.length := List.length_pos_iff.mpr h
  rw [List.length_drop]
  omega

@[simp] theorem pieces_nil : pieces [] = [] := by
  rw [pieces]
  rfl

theorem pieces_cons {bytes : List UInt8} (h : bytes ≠ []) :
    pieces bytes = takeLine (MAXBUF-1) bytes ::
      pieces (bytes.drop (takeLine (MAXBUF-1) bytes).length) := by
  rw [pieces,dif_neg h]

theorem takeLine_line {l r : List UInt8} {room : Nat} (hl : 10 ∉ l) (hroom : l.length < room) :
    takeLine room (l ++ 10 :: r) = l ++ [10] := by
  induction l generalizing room with
  | nil =>
    cases room with
    | zero => simp at hroom
    | succ room => simp [takeLine]
  | cons c l ih =>
    rw [List.mem_cons,not_or] at hl
    cases room with
    | zero => simp at hroom
    | succ room =>
      simp only [List.length_cons] at hroom
      have hc : (c == 10) = false := beq_eq_false_iff_ne.mpr (Ne.symm hl.1)
      have hrest : takeLine room (l ++ 10 :: r) = l ++ [10] := ih hl.2 (by omega)
      simp [takeLine,hc,hrest]

theorem drop_line {l : List UInt8} {room : Nat} (hl : 10 ∉ l) (hroom : l.length < room)
    (r : List UInt8) : (l ++ 10 :: r).drop (takeLine room (l ++ 10 :: r)).length = r := by
  have hsplit : l ++ 10 :: r = (l ++ [10]) ++ r := by simp
  rw [takeLine_line hl hroom,hsplit,List.drop_left]

theorem pieces_shortLine {l : List UInt8} (hl : 10 ∉ l) (hshort : l.length < MAXBUF-1)
    (r : List UInt8) : pieces (l ++ 10 :: r) = (l ++ [10]) :: pieces r := by
  have hne : l ++ 10 :: r ≠ [] := by simp
  rw [pieces_cons hne,drop_line hl hshort,takeLine_line hl hshort]

theorem pieces_line {l : List UInt8} (hl : 10 ∉ l) (r : List UInt8) :
    ∃ ps, pieces (l ++ 10 :: r) = ps ++ pieces r := by
  induction hn : l.length using Nat.strong_induction_on generalizing l with
  | _ n ih =>
    subst hn
    have hne : l ++ 10 :: r ≠ [] := by simp
    by_cases hshort : l.length < MAXBUF-1
    · exact ⟨[l ++ [10]],pieces_shortLine hl hshort r⟩
    · have htake : (l ++ 10 :: r).take (MAXBUF-1) = l.take (MAXBUF-1) :=
        List.take_append_of_le_length (by omega)
      have hclear : 10 ∉ (l ++ 10 :: r).take (MAXBUF-1) := by
        rw [htake]
        intro h
        exact hl (List.mem_of_mem_take h)
      have hlen : (takeLine (MAXBUF-1) (l ++ 10 :: r)).length = MAXBUF-1 := by
        rw [takeLine_eq_take hclear,htake,List.length_take]
        omega
      have hmax : 0 < MAXBUF-1 := by decide
      obtain ⟨ps,hps⟩ := ih (l.drop (MAXBUF-1)).length (by rw [List.length_drop]; omega)
        (fun h => hl (List.mem_of_mem_drop h)) rfl
      refine ⟨takeLine (MAXBUF-1) (l ++ 10 :: r) :: ps,?_⟩
      rw [pieces_cons hne,hlen,List.drop_append_of_le_length (by omega),hps,List.cons_append]

theorem headLine_fromClient (bytes : List UInt8) :
    headLine (fromClient bytes) =
      { bytes := takeLine (MAXBUF-1) bytes
        stop := if 10 ∈ takeLine (MAXBUF-1) bytes then .newline
          else if (takeLine (MAXBUF-1) bytes).length = MAXBUF-1 then .full else .eof
        rest := fromClient (bytes.drop (takeLine (MAXBUF-1) bytes).length) } :=
  cut_fromClient _ bytes

theorem headLine_fromClient_ne_error (bytes : List UInt8) :
    (headLine (fromClient bytes)).stop ≠ .error :=
  cut_fromClient_ne_error _ bytes

/-- At the end of the stream the buffer reads the empty string from then on. -/
theorem not_headEnds_nil {buf : List UInt8} {r : Stream' Received} :
    ¬ HeadEnds buf (fromClient []) r := by
  intro h
  generalize hs : fromClient [] = s at h
  induction h with
  | last _ hb =>
    subst hs
    rw [fill_eq_crlf (headLine_isLine _)] at hb
    simp [headLine_fromClient,crlf,ascii] at hb
  | next _ _ _ ih =>
    subst hs
    exact ih (by simp [headLine_fromClient])

/-- A finite stream of headers ends in one of three ways that let the loop
see CR LF: on such a line; or with a lone CR right after a line of two bytes;
or with a lone CR as all there is, in front of an LF on the stack. -/
def Drained (headers : List UInt8) (ps : List (List UInt8)) : Prop :=
  crlf ∈ ps ∨ (∃ qs x, ps = qs ++ [[x,10],[13]]) ∨ (ps = [[13]] ∧ Stale headers)

theorem drained_cons {headers p : List UInt8} {ps : List (List UInt8)} (hp : p ≠ [13]) :
    Drained headers (p :: ps) ↔ p = crlf ∨ crlf ∈ ps ∨
      (∃ qs x, ps = qs ++ [[x,10],[13]]) ∨ (ps = [[13]] ∧ ∃ x, p = [x,10]) := by
  have hcut : (∃ qs x, p :: ps = qs ++ [[x,10],[13]]) ↔
      (∃ qs x, ps = qs ++ [[x,10],[13]]) ∨ (ps = [[13]] ∧ ∃ x, p = [x,10]) := by
    constructor
    · rintro ⟨qs,x,h⟩
      cases qs with
      | nil =>
        simp only [List.nil_append,List.cons.injEq] at h
        exact .inr ⟨h.2,x,h.1⟩
      | cons q qs =>
        simp only [List.cons_append,List.cons.injEq] at h
        exact .inl ⟨qs,x,h.2⟩
    · rintro (⟨qs,x,rfl⟩ | ⟨rfl,x,rfl⟩)
      · exact ⟨p :: qs,x,rfl⟩
      · exact ⟨[],x,rfl⟩
  simp only [Drained,hcut,List.mem_cons,List.cons.injEq,hp,false_and,or_false,eq_comm (a := crlf),
    or_assoc]

theorem headLine_single {c : UInt8} (hc : c ≠ 10) :
    headLine (fromClient [c]) = ⟨[c],.eof,fromClient []⟩ := by
  have ht : takeLine (MAXBUF-1) [c] = [c] := by
    change takeLine (8189+1+1) [c] = [c]
    simp [takeLine,hc]
  rw [headLine_fromClient,ht]
  simp [Ne.symm hc,MAXBUF]

theorem headLine_short (bytes : List UInt8) (hb : ∀ c, c ≠ 10 → bytes ≠ [c]) (hne : bytes ≠ []) :
    ¬ ((headLine (fromClient bytes)).stop = .eof ∧
      (headLine (fromClient bytes)).bytes.length ≤ 1) := by
  rintro ⟨hs,hl⟩
  have hpos := takeLine_length_pos hne
  simp only [headLine_fromClient] at hs hl
  split_ifs at hs with hn hf
  have hall := takeLine_all hn hf
  have hone : (takeLine (MAXBUF-1) bytes).length = 1 := by omega
  obtain ⟨c,hc⟩ := List.length_eq_one_iff.mp hone
  rw [hc] at hall hn
  exact hb c (by simpa [eq_comm] using hn) hall.symm

theorem headLine_ne_cr (bytes : List UInt8) (hb : ∀ c, c ≠ 10 → bytes ≠ [c]) (hne : bytes ≠ []) :
    (headLine (fromClient bytes)).bytes ≠ [13] := by
  intro h
  refine headLine_short bytes hb hne ⟨?_,by simp [h]⟩
  have hnl := headLine_newline (fromClient bytes)
  have hfull := headLine_full (s := fromClient bytes)
  cases hs : (headLine (fromClient bytes)).stop with
  | newline => simp [hs,h] at hnl
  | full => simp [hs,h,MAXBUF] at hfull
  | eof => rfl
  | error => exact absurd hs (headLine_fromClient_ne_error bytes)

theorem headEnds_single {c : UInt8} (hc : c ≠ 10) (buf : List UInt8) :
    (∃ r, HeadEnds buf (fromClient [c]) r) ↔ Drained buf (pieces [c]) := by
  have hbytes : (headLine (fromClient [c])).bytes = takeLine (MAXBUF-1) [c] := by
    rw [headLine_fromClient]
  have hlong : ∀ (qs : List (List UInt8)) (x : UInt8), ¬ [[c]] = qs ++ [[x,10],[13]] := by
    intro qs x h
    simpa using congrArg List.length h
  rw [headEnds_step,fill_eq_crlf (headLine_isLine _),pieces_cons (List.cons_ne_nil c []),← hbytes]
  simp [headLine_single hc,not_headEnds_nil,Drained,crlf,ascii,Piece.bare,hlong]

theorem headEnds_fromClient (buf bytes : List UInt8) :
    (∃ r, HeadEnds buf (fromClient bytes) r) ↔ Drained buf (pieces bytes) := by
  induction hn : bytes.length using Nat.strongRecOn generalizing buf bytes with
  | ind n ih =>
    by_cases hb : bytes = []
    · subst hb
      rw [headEnds_step,fill_eq_crlf (headLine_isLine _)]
      simp [headLine_fromClient,not_headEnds_nil,Drained,crlf,ascii]
    by_cases hc : ∃ c, c ≠ 10 ∧ bytes = [c]
    · obtain ⟨c,hc,rfl⟩ := hc
      exact headEnds_single hc buf
    -- a line of its own: the rest is shorter, and starts with what `fill` leaves behind
    have herr := headLine_fromClient_ne_error bytes
    have hlast : ∀ c, c ≠ 10 → bytes ≠ [c] := by simpa using hc
    have hshort := headLine_short bytes hlast hb
    have hbare : ¬ (headLine (fromClient bytes)).bare = true := by
      rw [bare_iff]
      rintro ⟨h₁,h₂⟩
      exact hshort ⟨h₁,h₂.le⟩
    have hpos := takeLine_length_pos hb
    have hlen : 0 < bytes.length := List.length_pos_iff.mpr hb
    have hrest := ih _ (by rw [List.length_drop]; omega)
      ((headLine (fromClient bytes)).fill buf)
      (bytes.drop (takeLine (MAXBUF-1) bytes).length) rfl
    have hr : (headLine (fromClient bytes)).rest =
        fromClient (bytes.drop (takeLine (MAXBUF-1) bytes).length) := by
      rw [headLine_fromClient]
    rw [headEnds_step,fill_eq_crlf (headLine_isLine _),hr,hrest,pieces_cons hb,
      ← show (headLine (fromClient bytes)).bytes = takeLine (MAXBUF-1) bytes by
        rw [headLine_fromClient],drained_cons (headLine_ne_cr bytes hlast hb)]
    have hst := stale_fill herr buf
    rw [← and_assoc] at hst
    simp only [hshort,false_and,false_or] at hst
    simp [herr,hbare,Drained,hst]

/-- The loop returns for exactly these streams. -/
theorem headers_drained (buf : CharArray MAXBUF) (bytes : List UInt8) (conn : Conn) :
    (∃ fuel conn', requestReadHeaders buf.1 fuel { conn with input := fromClient bytes } =
      .done conn') ↔ Drained buf.1 (pieces bytes) := by
  rw [requestReadHeaders_returns]
  exact headEnds_fromClient buf.1 bytes

/-- A client that goes away after one header line keeps the loop busy for ever. -/
theorem cut_headers_never_drained :
    ¬ ∃ fuel conn', requestReadHeaders zeroed.1 fuel
      (Conn.fresh (fromClient (ascii "Host: a\r\n")) (Stream'.const .all)) = .done conn' := by
  rw [requestReadHeaders_returns]
  change ¬ ∃ r, HeadEnds _ (fromClient (ascii "Host: a\r\n")) r
  have ht : takeLine (MAXBUF-1) (ascii "Host: a\r\n") = ascii "Host: a\r\n" := by decide
  rw [headEnds_fromClient,pieces_cons (by decide),ht,List.drop_length,pieces_nil]
  rintro (h | ⟨qs,x,h⟩ | ⟨h,_⟩)
  · revert h
    decide
  · have hl := congrArg List.length h
    simp at hl
  · revert h
    decide

end ConcurrentWebServer.Requests
