import ConcurrentWebServer.ConnectionFailure
set_option autoImplicit false

/-! How much of its input `request_parse` reads: the head of the request, when
no line of it is cut right before its CR LF. -/

namespace ConcurrentWebServer

section Pieces
variable {u : List UInt8}

def arriving (bytes : List UInt8) (s : Stream' Received) : Stream' Received :=
  bytes.map .byte ++ₛ s

theorem arriving_append (a b : List UInt8) (s : Stream' Received) :
    arriving (a ++ b) s = arriving a (arriving b s) := by
  simp [arriving]

@[simp] theorem arriving_head (c : UInt8) (b : List UInt8) (s : Stream' Received) :
    (arriving (c :: b) s).head = .byte c := rfl

@[simp] theorem arriving_tail (c : UInt8) (b : List UInt8) (s : Stream' Received) :
    (arriving (c :: b) s).tail = arriving b s := rfl

theorem cut_line {room : Nat} (hu : 10 ∉ u) (hl : u.length < room) (s : Stream' Received) :
    cut room (arriving (u ++ [10]) s) = ⟨u ++ [10],.newline,s⟩ := by
  induction u generalizing room with
  | nil =>
    cases room with
    | zero => omega
    | succ room => rfl
  | cons c u ih =>
    simp only [List.mem_cons,not_or,List.length_cons] at hu hl
    cases room with
    | zero => omega
    | succ room =>
      have hrest := ih hu.2 (by omega : u.length < room)
      simp [cut,Ne.symm hu.1,hrest,Piece.push]

theorem cut_long {room : Nat} (hu : 10 ∉ u) (hl : room ≤ u.length) (s : Stream' Received) :
    cut room (arriving (u ++ [10]) s) =
      ⟨u.take room,.full,arriving (u.drop room ++ [10]) s⟩ := by
  induction u generalizing room with
  | nil =>
    have hroom : room = 0 := by simpa using hl
    subst hroom
    rfl
  | cons c u ih =>
    simp only [List.mem_cons,not_or,List.length_cons] at hu hl
    cases room with
    | zero => rfl
    | succ room =>
      have hrest := ih hu.2 (by omega : room ≤ u.length)
      simp [cut,Ne.symm hu.1,hrest,Piece.push]

end Pieces

end ConcurrentWebServer

namespace ConcurrentWebServer.Requests
open Execution CStrings

section Lines
variable {buf u : List UInt8} {s r : Stream' Received}

def EndsBlank (w : List UInt8) : Prop := w.length % (MAXBUF-1) = 2 ∧ crlf <:+ w

instance (w : List UInt8) : Decidable (EndsBlank w) := inferInstanceAs (Decidable (_ ∧ _))

theorem endsBlank_short {w : List UInt8} (hle : w.length ≤ MAXBUF-1) : EndsBlank w ↔ w = crlf := by
  constructor
  · intro h
    obtain ⟨hmod,hsuffix⟩ := h
    have hlen : w.length = 2 := by
      rw [MAXBUF] at hle hmod
      omega
    exact (hsuffix.eq_of_length (by rw [hlen]; rfl)).symm
  · intro hw
    rw [hw]
    exact ⟨rfl,List.suffix_rfl⟩

theorem endsBlank_drop {w : List UInt8} (h : MAXBUF-1 < w.length) :
    EndsBlank (w.drop (MAXBUF-1)) ↔ EndsBlank w := by
  have hmod : (w.drop (MAXBUF-1)).length % (MAXBUF-1) = w.length % (MAXBUF-1) := by
    rw [List.length_drop,← Nat.mod_eq_sub_mod h.le]
  rw [EndsBlank,EndsBlank,hmod,and_congr_right_iff]
  intro htwo
  constructor
  · intro hsuffix
    exact hsuffix.trans (List.drop_suffix _ _)
  · intro hsuffix
    have hlen : crlf.length ≤ (w.drop (MAXBUF-1)).length := by
      have hle := Nat.mod_le (w.drop (MAXBUF-1)).length (MAXBUF-1)
      rw [hmod,htwo] at hle
      exact hle
    exact List.suffix_of_suffix_length_le hsuffix (List.drop_suffix _ _) hlen

theorem headEnds_last (he : (headLine s).stop ≠ .error)
    (hb : cstr ((headLine s).fill buf) = crlf) : HeadEnds buf s r ↔ r = (headLine s).rest := by
  constructor
  · intro h
    exact h.unique (.last he hb)
  · intro hr
    rw [hr]
    exact .last he hb

theorem headEnds_next (he : (headLine s).stop ≠ .error)
    (hb : cstr ((headLine s).fill buf) ≠ crlf) :
    HeadEnds buf s r ↔ HeadEnds ((headLine s).fill buf) (headLine s).rest r := by
  constructor
  · intro h
    cases h with
    | last _ hb' => exact absurd hb' hb
    | next _ _ h => exact h
  · exact .next he hb

theorem fill_blank {p : Piece} (hp : IsLine p.bytes) (hs : p.stop ≠ .eof) (old : List UInt8) :
    cstr (p.fill old) = crlf ↔ p.bytes = crlf := by
  rw [fill_eq_crlf hp,bare_iff]
  simp [hs]

theorem headEnds_line (hu : 10 ∉ u) (buf : List UInt8) (s : Stream' Received) :
    ∃ buf', ∀ r, HeadEnds buf (arriving (u ++ [10]) s) r ↔
      if EndsBlank (u ++ [10]) then r = s else HeadEnds buf' s r := by
  induction hn : u.length using Nat.strongRecOn generalizing buf u with
  | ind n ih =>
    have hlen : (u ++ [10]).length = u.length+1 := List.length_append
    by_cases hl : u.length < MAXBUF-1
    · -- one piece, which is the line
      have hcut : headLine (arriving (u ++ [10]) s) = ⟨u ++ [10],.newline,s⟩ := cut_line hu hl s
      have hblank := fill_blank (headLine_isLine (arriving (u ++ [10]) s)) (by simp [hcut]) buf
      have hends := endsBlank_short (w := u ++ [10]) (by omega)
      have hbytes : (headLine (arriving (u ++ [10]) s)).bytes = u ++ [10] := by rw [hcut]
      rw [hbytes,← hends] at hblank
      refine ⟨(headLine (arriving (u ++ [10]) s)).fill buf,fun r => ?_⟩
      split_ifs with h
      · rw [headEnds_last (by simp [hcut]) (hblank.mpr h),hcut]
      · rw [headEnds_next (by simp [hcut]) (fun hb => h (hblank.mp hb)),hcut]
    · -- a full piece, and the rest of the line behind it
      have hcut : headLine (arriving (u ++ [10]) s) =
          ⟨u.take (MAXBUF-1),.full,arriving (u.drop (MAXBUF-1) ++ [10]) s⟩ :=
        cut_long hu (by omega) s
      have hfull : (headLine (arriving (u ++ [10]) s)).bytes ≠ crlf := by
        intro h
        have hcount := headLine_full (s := arriving (u ++ [10]) s) (by rw [hcut])
        rw [h] at hcount
        exact absurd hcount (by decide)
      have hblank := fill_blank (headLine_isLine (arriving (u ++ [10]) s)) (by simp [hcut]) buf
      have hdrop := endsBlank_drop (w := u ++ [10]) (by omega)
      rw [List.drop_append_of_le_length (by omega)] at hdrop
      obtain ⟨buf',hrest⟩ := ih (u.drop (MAXBUF-1)).length
        (by rw [List.length_drop,MAXBUF] at *; omega) (fun h => hu (List.mem_of_mem_drop h))
        ((headLine (arriving (u ++ [10]) s)).fill buf) rfl
      refine ⟨buf',fun r => ?_⟩
      rw [headEnds_next (by simp [hcut]) (fun hb => hfull (hblank.mp hb))]
      simp only [← hdrop,← hrest r,hcut]

end Lines

section Heads

def unlines (ls : List (List UInt8)) : List UInt8 := ls.flatMap (· ++ [10])

theorem arriving_unlines (l : List UInt8) (ls : List (List UInt8)) (rest : Stream' Received) :
    arriving (unlines (l :: ls) ++ crlf) rest =
      arriving (l ++ [10]) (arriving (unlines ls ++ crlf) rest) := by
  rw [unlines,List.flatMap_cons,List.append_assoc,arriving_append]
  rfl

/-- The head of a request up to its first blank line, which is not among the
fields. The lines are without their LF. -/
structure Head where
  request : List UInt8
  fields : List (List UInt8)
  request_lf : 10 ∉ request
  field_lf : ∀ l ∈ fields, 10 ∉ l
  field_ne : ∀ l ∈ fields, l ≠ [13]

namespace Head

def bytes (h : Head) : List UInt8 := unlines (h.request :: h.fields) ++ crlf

def before (h : Head) (rest : Stream' Received) : Stream' Received := arriving h.bytes rest

/-- The lines `request_read_headers` has to do with: the fields, and what the
first `readline` has left of the request line. -/
def drained (h : Head) : List (List UInt8) :=
  if h.request.length < MAXBUF-1 then h.fields else h.request.drop (MAXBUF-1) :: h.fields

theorem drained_lf (h : Head) : ∀ l ∈ h.drained, 10 ∉ l := by
  unfold drained
  split_ifs with hl
  · exact h.field_lf
  · rw [List.forall_mem_cons]
    exact ⟨fun hm => h.request_lf (List.mem_of_mem_drop hm),h.field_lf⟩

end Head

theorem exists_unlines {b : List UInt8} (h : b = [] ∨ ∃ t, b = t ++ [10]) :
    ∃ ls, (∀ l ∈ ls, 10 ∉ l) ∧ b = unlines ls := by
  induction b with
  | nil => exact ⟨[],by simp,rfl⟩
  | cons c b ih =>
    obtain ⟨t,ht⟩ := h.resolve_left (List.cons_ne_nil c b)
    cases t with
    | nil =>
      cases ht
      exact ⟨[[]],by simp,rfl⟩
    | cons d t =>
      obtain ⟨rfl,hb⟩ := List.cons.inj ht
      obtain ⟨ls,hls,hlines⟩ := ih (.inr ⟨t,hb⟩)
      by_cases hc : c = 10
      · exact ⟨[] :: ls,by simpa using hls,by simp [unlines,hc,hlines]⟩
      · cases ls with
        | nil => simp [hlines,unlines] at hb
        | cons l ls =>
          rw [List.forall_mem_cons] at hls
          refine ⟨(c :: l) :: ls,?_,by simp [unlines,hlines]⟩
          rw [List.forall_mem_cons]
          exact ⟨by simp [Ne.symm hc,hls.1],hls.2⟩

theorem exists_head {request b : List UInt8} (hreq : 10 ∉ request)
    (hb : b = [] ∨ ∃ t, b = t ++ [10]) (s : Stream' Received) :
    ∃ h : Head, h.request = request ∧
      ∃ rest, arriving (request ++ [10] ++ b ++ crlf) s = h.before rest := by
  obtain ⟨ls,hls,rfl⟩ := exists_unlines hb
  clear hb
  suffices hfields : ∃ fields, (∀ l ∈ fields, 10 ∉ l) ∧ (∀ l ∈ fields, l ≠ [13]) ∧
      ∃ rest, arriving (unlines ls ++ crlf) s = arriving (unlines fields ++ crlf) rest by
    obtain ⟨fields,hlf,hne,rest,heq⟩ := hfields
    refine ⟨⟨request,fields,hreq,hlf,hne⟩,rfl,rest,?_⟩
    rw [Head.before,Head.bytes,arriving_unlines,List.append_assoc,arriving_append,heq]
  induction ls with
  | nil => exact ⟨[],by simp,by simp,s,rfl⟩
  | cons l ls ih =>
    rw [List.forall_mem_cons] at hls
    by_cases hl : l = [13]
    · refine ⟨[],by simp,by simp,arriving (unlines ls ++ crlf) s,?_⟩
      rw [arriving_unlines,hl]
      rfl
    · obtain ⟨fields,hlf,hne,rest,heq⟩ := ih hls.2
      refine ⟨l :: fields,?_,?_,rest,?_⟩
      · rw [List.forall_mem_cons]
        exact ⟨hls.1,hlf⟩
      · rw [List.forall_mem_cons]
        exact ⟨hl,hne⟩
      · rw [arriving_unlines,arriving_unlines,heq]

def CutBeforeEnd (w : List UInt8) : Prop := MAXBUF-1 < w.length ∧ EndsBlank w

def unread : List (List UInt8) → List UInt8
  | [] => []
  | l :: ls => if EndsBlank (l ++ [10]) then unlines ls ++ crlf else unread ls

theorem unread_eq_nil_iff (ls : List (List UInt8)) :
    unread ls = [] ↔ ∀ l ∈ ls, ¬ EndsBlank (l ++ [10]) := by
  induction ls with
  | nil => simp [unread]
  | cons l ls ih =>
    by_cases h : EndsBlank (l ++ [10])
    · simp [unread,h,crlf,ascii]
    · simp [unread,h,ih]

theorem headEnds_fields {ls : List (List UInt8)} (hls : ∀ l ∈ ls, 10 ∉ l) (buf : List UInt8)
    (rest r : Stream' Received) :
    HeadEnds buf (arriving (unlines ls ++ crlf) rest) r ↔ r = arriving (unread ls) rest := by
  induction ls generalizing buf with
  | nil =>
    obtain ⟨_,hline⟩ := headEnds_line (u := [13]) (by decide) buf rest
    have hblank : EndsBlank ([13] ++ [10]) := by decide
    exact (hline r).trans (by rw [if_pos hblank]; rfl)
  | cons l ls ih =>
    rw [List.forall_mem_cons] at hls
    obtain ⟨buf',hline⟩ := headEnds_line hls.1 buf (arriving (unlines ls ++ crlf) rest)
    rw [arriving_unlines,hline,unread]
    split_ifs with h
    · rfl
    · exact ih hls.2 buf'

theorem headLine_request (h : Head) : ∃ b stop, stop ≠ .error ∧ ∀ rest,
    headLine (h.before rest) = ⟨b,stop,arriving (unlines h.drained ++ crlf) rest⟩ := by
  by_cases hl : h.request.length < MAXBUF-1
  · refine ⟨h.request ++ [10],.newline,by simp,fun rest => ?_⟩
    rw [Head.before,Head.bytes,arriving_unlines,Head.drained,if_pos hl]
    exact cut_line h.request_lf hl _
  · refine ⟨h.request.take (MAXBUF-1),.full,by simp,fun rest => ?_⟩
    rw [Head.before,Head.bytes,arriving_unlines,Head.drained,if_neg hl,arriving_unlines]
    exact cut_long h.request_lf (by omega) _

theorem drained_endsBlank_iff (h : Head) : (∀ l ∈ h.drained, ¬ EndsBlank (l ++ [10])) ↔
    ∀ l ∈ h.request :: h.fields, ¬ CutBeforeEnd (l ++ [10]) := by
  have hfields : (∀ l ∈ h.fields, ¬ EndsBlank (l ++ [10])) ↔
      ∀ l ∈ h.fields, ¬ CutBeforeEnd (l ++ [10]) := by
    refine forall₂_congr fun l hl => not_congr ⟨fun hends => ⟨?_,hends⟩,fun hcut => hcut.2⟩
    -- a field that fits in one piece would be the blank line
    by_contra hshort
    have hcrlf := (endsBlank_short (by omega)).mp hends
    exact h.field_ne l hl (List.append_cancel_right (hcrlf.trans crlf_eq))
  have hlen : (h.request ++ [10]).length = h.request.length+1 := List.length_append
  rw [List.forall_mem_cons,← hfields,Head.drained]
  split_ifs with hl
  · exact (and_iff_right fun hcut => absurd hcut.1 (by omega)).symm
  · have hlong : MAXBUF-1 < (h.request ++ [10]).length := by omega
    have hdrop := endsBlank_drop hlong
    rw [List.drop_append_of_le_length (by omega)] at hdrop
    rw [List.forall_mem_cons,hdrop,CutBeforeEnd,and_iff_right hlong]

end Heads

section Framing

def FramesHead (f : Frame) (h : Head) : Prop :=
  ∀ fs fd conn rest, conn.input = h.before rest →
    isGet (f.method' (headLine conn.input)) = true →
    Admitted fs (requestParseUri f.below (f.uri' (headLine conn.input))) →
    ∃ req, Parses fs f fd conn (some req,{ conn with input := rest })

def Head.method (h : Head) (f : Frame) : List UInt8 :=
  f.method' (headLine (h.before (Stream'.const .eof)))

theorem Head.method_eq (h : Head) (f : Frame) (rest : Stream' Received) :
    f.method' (headLine (h.before rest)) = h.method f := by
  obtain ⟨b,stop,_,hline⟩ := headLine_request h
  rw [Head.method,hline,hline]
  rfl

def permissive : FileSystem :=
  ⟨fun _ => some ⟨0o100500,0⟩,fun _ => none,fun _ _ => none⟩

theorem permissive_admits (resolved : Bool × List UInt8 × List UInt8) :
    Admitted permissive resolved := by
  refine ⟨_,rfl,?_⟩
  cases resolved.1 <;> decide

theorem parses_unread {f : Frame} {h : Head} {fs : FileSystem} {fd : Nat} {conn : Conn}
    {rest r : Stream' Received} (hin : conn.input = h.before rest)
    (hget : isGet (h.method f) = true)
    (hadmitted : Admitted fs (requestParseUri f.below (f.uri' (headLine conn.input)))) :
    (∃ req, Parses fs f fd conn (some req,{ conn with input := r })) ↔
      r = arriving (unread h.drained) rest := by
  obtain ⟨b,stop,hstop,hline⟩ := headLine_request h
  rw [← h.method_eq f rest,← hin] at hget
  have hpiece := hline rest
  rw [← hin] at hpiece
  have herr : (headLine conn.input).stop ≠ .error := by rwa [hpiece]
  have hrest : (headLine conn.input).rest = arriving (unlines h.drained ++ crlf) rest := by
    rw [hpiece]
  rw [← headEnds_fields h.drained_lf f.headers.1 rest r,← hrest]
  constructor
  · intro h
    obtain ⟨req,hp⟩ := h
    exact (parses_some hp).2.1
  · intro hends
    obtain ⟨req,hv⟩ := verdict_ok_of_admitted fd hadmitted
    refine ⟨req,(parses_get herr hget).mpr ⟨r,hends,?_⟩⟩
    rw [hv]
    rfl

theorem FramesHead.unread_nil {f : Frame} {h : Head} (hframes : FramesHead f h)
    (hget : isGet (h.method f) = true) : unread h.drained = [] := by
  let conn := Conn.fresh (h.before (Stream'.const .eof)) (Stream'.const .all)
  have hadmitted := permissive_admits (requestParseUri f.below (f.uri' (headLine conn.input)))
  have hget' : isGet (f.method' (headLine conn.input)) = true := hget
  have hread := hframes permissive 4 conn (Stream'.const .eof) rfl hget' hadmitted
  have hleft := (parses_unread rfl hget hadmitted).mp hread
  -- behind the head there is nothing, so bytes of the head would show
  cases hu : unread h.drained with
  | nil => rfl
  | cons c bytes =>
    rw [hu] at hleft
    cases congrArg Stream'.head hleft

theorem framesHead_of_unread {f : Frame} {h : Head}
    (hunread : isGet (h.method f) = true → unread h.drained = []) : FramesHead f h := by
  intro fs fd conn rest hin hget hadmitted
  rw [hin,h.method_eq] at hget
  refine (parses_unread hin hget hadmitted).mpr ?_
  rw [hunread hget]
  rfl

theorem framesHead_iff (f : Frame) (h : Head) : FramesHead f h ↔
    (isGet (h.method f) = true → ∀ l ∈ h.request :: h.fields, ¬ CutBeforeEnd (l ++ [10])) := by
  rw [← drained_endsBlank_iff,← unread_eq_nil_iff]
  exact ⟨FramesHead.unread_nil,framesHead_of_unread⟩

/-- The reads end with the head unless a line of it is cut right before its CR
LF; and every stream with a blank line behind its first line begins with a head. -/
theorem head_framed (f : Frame) :
    (∀ h : Head, FramesHead f h ↔
      (isGet (h.method f) = true → ∀ l ∈ h.request :: h.fields, ¬ CutBeforeEnd (l ++ [10]))) ∧
    ∀ (request b : List UInt8) (s : Stream' Received), 10 ∉ request →
      (b = [] ∨ ∃ t, b = t ++ [10]) →
      ∃ h : Head, h.request = request ∧
        ∃ rest, arriving (request ++ [10] ++ b ++ crlf) s = h.before rest :=
  ⟨framesHead_iff f,fun _ _ s hreq hb => exists_head hreq hb s⟩

def longField : Head where
  request := ascii "GET /a HTTP/1.0\r"
  fields := [List.replicate (MAXBUF-1) 65 ++ [13]]
  request_lf := by decide
  field_lf := by
    simp only [List.forall_mem_singleton,List.mem_append,List.mem_replicate]
    decide
  field_ne := by
    intro l hl h
    have hlen := congrArg List.length ((List.mem_singleton.mp hl).symm.trans h)
    rw [List.length_append,List.length_replicate] at hlen
    exact absurd hlen (by decide)

theorem long_field_ends_head : ¬ FramesHead .zeros longField := by
  intro hframes
  have hget : isGet (longField.method .zeros) = true := by decide
  have huncut := (drained_endsBlank_iff longField).mp
    ((unread_eq_nil_iff _).mp (hframes.unread_nil hget))
  have hlen : (List.replicate (MAXBUF-1) 65 ++ [13] ++ [10] : List UInt8).length = MAXBUF+1 := by
    rw [List.length_append,List.length_append,List.length_replicate]
    rfl
  refine huncut _ (List.mem_cons_of_mem _ (List.mem_singleton_self _)) ⟨?_,?_,?_⟩
  · rw [hlen]
    decide
  · rw [hlen]
    decide
  · rw [List.append_assoc,← crlf_eq]
    exact List.suffix_append _ _

end Framing

end ConcurrentWebServer.Requests
