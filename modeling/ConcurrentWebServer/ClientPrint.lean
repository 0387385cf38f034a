import ConcurrentWebServer.HttpGet
import ConcurrentWebServer.LineReading
import ConcurrentWebServer.ReplyDecoding
import ConcurrentWebServer.ServedFiles
set_option autoImplicit false

/-! `client_print` of wclient.c: what it prints of the replies of the server. -/

namespace ConcurrentWebServer.Requests
open Execution CStrings

section Model

structure Printer where
  n : Nat
  buf : List UInt8
  conn : Conn
  out : List UInt8

def Printer.readline (s : Printer) : Exec Printer := do
  let (n,buf,conn) ← ConcurrentWebServer.readline s.buf MAXBUF s.conn
  pure { s with n := n, buf := buf, conn := conn }

def Printer.print (s : Printer) (text : List UInt8) : Printer := { s with out := s.out ++ text }

/-- `buf` is the array as the stack happens to hold it. -/
def clientPrint (buf : CharArray MAXBUF) (fuel : Nat) (conn : Conn) : Exec Printer := do
  let s ← Printer.readline ⟨0,buf.1,conn,[]⟩
  let s ← loop (fun s => cstr s.buf != ascii "\r\n" && decide (0 < s.n))
    (fun s => (s.print (ascii "Header: " ++ cstr s.buf)).readline) fuel s
  let s ← s.readline
  loop (fun s => decide (0 < s.n)) (fun s => (s.print (cstr s.buf)).readline) fuel s

end Model

section Loops

variable {s : Printer} {bytes : List UInt8}

structure Printer.Has (s : Printer) (bytes : List UInt8) : Prop where
  count : 0 < s.n ↔ 2 ≤ (takeLine (MAXBUF-1) bytes).length
  line : 0 < s.n → cstr s.buf = cstr (takeLine (MAXBUF-1) bytes)
  input : s.conn.input = fromClient (bytes.drop (takeLine (MAXBUF-1) bytes).length)

theorem count_pos : 0 < (linePiece (MAXBUF-1) bytes).count ↔
    2 ≤ (takeLine (MAXBUF-1) bytes).length := by
  by_cases hn : 10 ∈ takeLine (MAXBUF-1) bytes
  · rw [Piece.count,if_pos (linePiece_newline.mpr hn),linePiece_bytes]
    omega
  · have hstop : (linePiece (MAXBUF-1) bytes).stop ≠ .newline :=
      fun h => hn (linePiece_newline.mp h)
    have hbare := linePiece_bare hn
    have hroom : MAXBUF-1 ≠ 1 := by decide
    rw [Piece.count,if_neg hstop,linePiece_bytes]
    split_ifs with hb
    · have hone := (hbare.mp hb).1
      omega
    · have hone : (takeLine (MAXBUF-1) bytes).length ≠ 1 := fun h => hb (hbare.mpr ⟨h,hroom⟩)
      omega

theorem cstr_fill (old : List UInt8) (h : 0 < (linePiece (MAXBUF-1) bytes).count) :
    cstr ((linePiece (MAXBUF-1) bytes).fill old) = cstr (takeLine (MAXBUF-1) bytes) := by
  have hbare : (linePiece (MAXBUF-1) bytes).bare = false := by
    rw [← Bool.not_eq_true]
    intro hb
    have hlen : (linePiece (MAXBUF-1) bytes).bytes.length = 1 := by
      rw [Piece.bare,Bool.and_eq_true,beq_iff_eq,beq_iff_eq] at hb
      exact hb.2
    have htwo := count_pos.mp h
    rw [linePiece_bytes] at hlen
    omega
  rw [Piece.fill,if_neg (by simp [hbare]),cstr_strcpy,linePiece_bytes]

theorem Printer.readline_has (hin : s.conn.input = fromClient bytes) :
    ∃ s', s.readline = .done s' ∧ s'.Has bytes ∧ s'.out = s.out := by
  have hread := readline_fromClient hin MAXBUF s.buf
  refine ⟨{ s with
    n := (linePiece (MAXBUF-1) bytes).count
    buf := (linePiece (MAXBUF-1) bytes).fill s.buf
    conn := { s.conn with
      input := fromClient (bytes.drop (takeLine (MAXBUF-1) bytes).length) } },?_,
    ⟨count_pos,cstr_fill s.buf,rfl⟩,rfl⟩
  rw [Printer.readline,hread,done_bind]
  rfl

def Printer.goes (test : List UInt8 → Bool) (s : Printer) : Bool :=
  test (cstr s.buf) && decide (0 < s.n)

def goes (test : List UInt8 → Bool) (p : List UInt8) : Bool :=
  test (cstr p) && decide (2 ≤ p.length)

theorem Printer.Has.goes (h : s.Has bytes) (test : List UInt8 → Bool) :
    s.goes test = Requests.goes test (takeLine (MAXBUF-1) bytes) := by
  by_cases hn : 0 < s.n
  · simp only [Printer.goes,Requests.goes,h.line hn,hn,h.count.mp hn]
  · have htwo : ¬ 2 ≤ (takeLine (MAXBUF-1) bytes).length := fun ht => hn (h.count.mpr ht)
    simp only [Printer.goes,Requests.goes,hn,htwo,decide_false,Bool.and_false]

def listing (test : List UInt8 → Bool) (text : List UInt8 → List UInt8)
    (ps : List (List UInt8)) : List UInt8 :=
  (ps.takeWhile (goes test)).flatMap fun p => text (cstr p)

/-- A loop prints pieces up to one that fails its test, or does not count. -/
theorem print_loop (test : List UInt8 → Bool) (text : List UInt8 → List UInt8) (h : s.Has bytes)
    {fuel : Nat} (hf : (pieces bytes).length ≤ fuel) :
    ∃ s' rest, loop (Printer.goes test) (fun s => (s.print (text (cstr s.buf))).readline) fuel s =
        .done s' ∧
      s'.out = s.out ++ listing test text (pieces bytes) ∧ s'.conn.input = fromClient rest ∧
      pieces rest = ((pieces bytes).dropWhile (goes test)).drop 1 := by
  -- on the pieces that are left, of which every round takes one
  induction hps : pieces bytes generalizing s bytes fuel with
  | nil =>
    have hb : bytes = [] := by
      by_contra hne
      rw [pieces_cons hne] at hps
      cases hps
    subst hb
    have hstop : s.goes test = false := by
      rw [h.goes]
      simp [goes]
    exact ⟨s,[],loop_stop _ _ hstop fuel,by simp [listing],by simpa using h.input,by simp⟩
  | cons p ps ih =>
    have hne : bytes ≠ [] := by
      rintro rfl
      simp at hps
    rw [pieces_cons hne,List.cons.injEq] at hps
    obtain ⟨hp,hrest⟩ := hps
    have htest := h.goes test
    rw [hp] at htest
    cases hgo : goes test p with
    | true =>
      rw [pieces_cons hne,hrest,List.length_cons] at hf
      obtain ⟨fuel,rfl⟩ : ∃ k, fuel = k+1 := ⟨fuel-1,by omega⟩
      obtain ⟨s₁,hread,hhas,hout⟩ :=
        Printer.readline_has (s := s.print (text (cstr s.buf))) h.input
      obtain ⟨s',rest,hloop,hout',hin,hdrop⟩ := @ih s₁ _ hhas fuel (by rw [hrest]; omega) hrest
      have hn : 0 < s.n := by
        rw [hgo,Printer.goes,Bool.and_eq_true,decide_eq_true_eq] at htest
        exact htest.2
      refine ⟨s',rest,?_,?_,hin,?_⟩
      · rw [loop_next _ _ (htest.trans hgo) hread]
        exact hloop
      · rw [hout',hout,listing,listing,List.takeWhile_cons_of_pos hgo,List.flatMap_cons,
          Printer.print,h.line hn,hp,List.append_assoc]
      · rw [hdrop,List.dropWhile_cons_of_pos hgo]
    | false =>
      refine ⟨s,_,loop_stop _ _ (htest.trans hgo) fuel,?_,h.input,?_⟩
      · rw [listing,List.takeWhile_cons_of_neg (by simp [hgo])]
        simp
      · rw [List.dropWhile_cons_of_neg (by simp [hgo]),hrest]
        rfl

def printout (ps : List (List UInt8)) : List UInt8 :=
  listing (· != crlf) (ascii "Header: " ++ ·) ps ++
    listing (fun _ => true) id ((ps.dropWhile (goes (· != crlf))).drop 1)

theorem clientPrint_prints (buf : CharArray MAXBUF) {conn : Conn}
    (hin : conn.input = fromClient bytes) {fuel : Nat} (hf : (pieces bytes).length ≤ fuel) :
    ∃ s', clientPrint buf fuel conn = .done s' ∧ s'.out = printout (pieces bytes) := by
  obtain ⟨s₁,hread₁,hhas₁,hout₁⟩ := Printer.readline_has (s := ⟨0,buf.1,conn,[]⟩) hin
  obtain ⟨s₂,rest,hloop₂,hout₂,hin₂,hrest⟩ :=
    print_loop (· != crlf) (ascii "Header: " ++ ·) hhas₁ hf
  obtain ⟨s₃,hread₃,hhas₃,hout₃⟩ := Printer.readline_has hin₂
  have hf' : (pieces rest).length ≤ fuel := by
    have hlen := (List.dropWhile_suffix (l := pieces bytes) (goes (· != crlf))).length_le
    rw [hrest,List.length_drop]
    omega
  obtain ⟨s₄,_,hloop₄,hout₄,_⟩ := print_loop (fun _ => true) id hhas₃ hf'
  refine ⟨s₄,?_,?_⟩
  · rw [clientPrint,hread₁,done_bind]
    change (loop (Printer.goes (· != crlf)) _ fuel s₁ >>= _) = _
    rw [hloop₂,done_bind,hread₃,done_bind,← hloop₄]
    rfl
  · rw [hout₄,hout₃,hout₂,hout₁,hrest,printout,List.nil_append]

end Loops

section Replies

theorem pieces_flatten (bytes : List UInt8) : (pieces bytes).flatten = bytes := by
  induction hn : bytes.length using Nat.strongRecOn generalizing bytes with
  | ind n ih =>
    by_cases hb : bytes = []
    · simp [hb]
    · have hpos := takeLine_length_pos hb
      have hlen := List.length_pos_iff.mpr hb
      have hfront : takeLine (MAXBUF-1) bytes <+: bytes := by
        rw [takeLine_eq_segment]
        exact Segments.firstSegment_front _ _
      rw [pieces_cons hb,List.flatten_cons,ih _ (by rw [List.length_drop]; omega) _ rfl]
      exact (List.prefix_append_drop hfront).symm

theorem pieces_ne_nil {bytes p : List UInt8} (hp : p ∈ pieces bytes) : p ≠ [] := by
  induction hn : bytes.length using Nat.strongRecOn generalizing bytes with
  | ind n ih =>
    by_cases hb : bytes = []
    · simp [hb] at hp
    · have hpos := takeLine_length_pos hb
      have hlen := List.length_pos_iff.mpr hb
      rw [pieces_cons hb] at hp
      rcases List.mem_cons.mp hp with rfl | hp
      · exact List.length_pos_iff.mp hpos
      · exact ih _ (by rw [List.length_drop]; omega) hp rfl

theorem cstr_eq_self {s : List UInt8} : cstr s = s ↔ 0 ∉ s := by
  refine ⟨fun h => ?_,cstr_of_not_mem⟩
  rw [← h]
  exact not_mem_cstr s

theorem cstr_length_le (s : List UInt8) : (cstr s).length ≤ s.length :=
  (List.takeWhile_prefix _).length_le

theorem listing_length_le (ps : List (List UInt8)) :
    (listing (fun _ => true) id ps).length ≤ ps.flatten.length := by
  induction ps with
  | nil => simp [listing]
  | cons p ps ih =>
    by_cases hgo : goes (fun _ => true) p = true
    · rw [listing,List.takeWhile_cons_of_pos hgo,List.flatMap_cons,List.flatten_cons,
        List.length_append,List.length_append]
      exact Nat.add_le_add (cstr_length_le p) ih
    · rw [listing,List.takeWhile_cons_of_neg hgo]
      simp

theorem listing_eq_flatten {ps : List (List UInt8)} (hne : ∀ p ∈ ps, p ≠ []) :
    listing (fun _ => true) id ps = ps.flatten ↔ ∀ p ∈ ps, 0 ∉ p ∧ 2 ≤ p.length := by
  induction ps with
  | nil => simp [listing]
  | cons p ps ih =>
    obtain ⟨hp,hps⟩ := List.forall_mem_cons.mp hne
    rw [List.forall_mem_cons,← ih hps]
    by_cases hgo : goes (fun _ => true) p = true
    · have htwo : 2 ≤ p.length := by simpa [goes] using hgo
      have hle := listing_length_le ps
      have hfirst : listing (fun _ => true) id (p :: ps) =
          cstr p ++ listing (fun _ => true) id ps := by
        rw [listing,List.takeWhile_cons_of_pos hgo,List.flatMap_cons]
        rfl
      rw [hfirst,List.flatten_cons]
      constructor
      · intro h
        have hlen := congrArg List.length h
        have hcstr := cstr_length_le p
        rw [List.length_append,List.length_append] at hlen
        obtain ⟨hcp,hrest⟩ := List.append_inj h (by omega)
        exact ⟨⟨cstr_eq_self.mp hcp,htwo⟩,hrest⟩
      · intro h
        rw [cstr_eq_self.mpr h.1.1,h.2]
    · have hshort : ¬ 2 ≤ p.length := by simpa [goes] using hgo
      rw [listing,List.takeWhile_cons_of_neg hgo]
      constructor
      · intro h
        exact absurd (List.append_eq_nil_iff.mp h.symm).1 hp
      · intro h
        exact absurd h.1.2 hshort

structure HeaderLine (l : List UInt8) : Prop where
  line : 10 ∉ l
  text : 0 ∉ l
  short : l.length < MAXBUF-1
  nonempty : l ≠ [] ∧ l ≠ [13]

theorem HeaderLine.goes {l : List UInt8} (h : HeaderLine l) :
    goes (· != crlf) (l ++ [10]) = true ∧ cstr (l ++ [10]) = l ++ [10] := by
  have hzero : 0 ∉ l ++ [10] := by
    rw [List.mem_append,not_or]
    exact ⟨h.text,by decide⟩
  have hc := cstr_of_not_mem hzero
  have hpos := List.length_pos_iff.mpr h.nonempty.1
  refine ⟨?_,hc⟩
  have hne : l ++ [10] ≠ crlf := by
    intro he
    exact h.nonempty.2 (List.append_inj_left' (he.trans (rfl : crlf = [13] ++ [10])) rfl)
  rw [Requests.goes,hc,Bool.and_eq_true,bne_iff_ne,decide_eq_true_eq,List.length_append,
    List.length_singleton]
  exact ⟨hne,by omega⟩

theorem printout_reply {lines : List (List UInt8)} (h : ∀ l ∈ lines, HeaderLine l)
    (body : List UInt8) :
    printout (pieces (lines.flatMap (· ++ [10]) ++ (crlf ++ body))) =
      lines.flatMap (fun l => ascii "Header: " ++ l ++ [10]) ++
        listing (fun _ => true) id (pieces body) := by
  induction lines with
  | nil =>
    have hcrlf : pieces (crlf ++ body) = crlf :: pieces body := by
      have hshort : ([13] : List UInt8).length < MAXBUF-1 := by decide
      exact pieces_shortLine (by decide) hshort body
    have hstop : ¬ goes (· != crlf) crlf = true := by decide
    rw [List.flatMap_nil,List.nil_append,hcrlf,printout,listing,List.takeWhile_cons_of_neg hstop,
      List.dropWhile_cons_of_neg hstop]
    rfl
  | cons l lines ih =>
    obtain ⟨hl,hlines⟩ := List.forall_mem_cons.mp h
    obtain ⟨hgo,hc⟩ := hl.goes
    have hsplit : (l :: lines).flatMap (· ++ [10]) ++ (crlf ++ body) =
        l ++ 10 :: (lines.flatMap (· ++ [10]) ++ (crlf ++ body)) := by
      simp
    have hrest := ih hlines
    rw [printout,listing] at hrest ⊢
    rw [hsplit,pieces_shortLine hl.line hl.short,List.takeWhile_cons_of_pos hgo,
      List.dropWhile_cons_of_pos hgo,List.flatMap_cons,hc,List.append_assoc,hrest,
      List.flatMap_cons]
    simp only [List.append_assoc]

def fileLines (size : Nat) (filetype : List UInt8) : List (List UInt8) :=
  [ascii "HTTP/1.0 200 OK\r",ascii "Server: OSTEP WebServer\r",
   ascii "Content-Length: " ++ ascii (toString size) ++ [13],
   ascii "Content-Type: " ++ filetype ++ [13]]

theorem staticHeader_lines (size : Nat) (filetype : List UInt8) :
    staticHeader size filetype = (fileLines size filetype).flatMap (· ++ [10]) ++ crlf := by
  have h₁ : ascii "HTTP/1.0 200 OK\r\nServer: OSTEP WebServer\r\nContent-Length: " =
      ascii "HTTP/1.0 200 OK\r" ++ 10 ::
        (ascii "Server: OSTEP WebServer\r" ++ 10 :: ascii "Content-Length: ") := by decide
  have h₂ : ascii "\r\nContent-Type: " = 13 :: 10 :: ascii "Content-Type: " := by decide
  have h₃ : ascii "\r\n\r\n" = 13 :: 10 :: crlf := by decide
  have hsize : toString (size : Int) = toString size := rfl
  simp [staticHeader,fileLines,h₁,h₂,h₃,hsize]

theorem fileLines_header {size : Nat} (hsize : size < 10^10) (filename : List UInt8) :
    ∀ l ∈ fileLines size (requestGetFiletype filename), HeaderLine l := by
  have hlength : HeaderLine (ascii "Content-Length: " ++ ascii (toString size) ++ [13]) := by
    have hdigits : (ascii (toString size)).length ≤ 10 := by
      rw [ascii,Nat.toString_eq_repr,Nat.toList_repr,List.length_map]
      exact (Nat.length_toDigits_le_iff (by decide) (by decide)).mpr hsize
    have hzero : 0 ∉ ascii (toString size) := by
      intro h
      have hrange := (ascii_digit h).1
      revert hrange
      decide
    have h₁ : (ascii "Content-Length: ").length = 16 := by decide
    refine ⟨?_,?_,?_,by simp [ascii],by simp [ascii]⟩
    · simp only [List.mem_append,not_or]
      exact ⟨⟨by decide,digits_lf size⟩,by decide⟩
    · simp only [List.mem_append,not_or]
      exact ⟨⟨by decide,hzero⟩,by decide⟩
    · simp only [List.length_append,List.length_singleton,h₁,MAXBUF]
      omega
  have htype : HeaderLine (ascii "Content-Type: " ++ requestGetFiletype filename ++ [13]) := by
    unfold requestGetFiletype
    split_ifs <;> exact ⟨by decide,by decide,by decide,by decide,by decide⟩
  intro l hl
  simp only [fileLines,List.mem_cons,List.not_mem_nil,or_false] at hl
  rcases hl with rfl | rfl | rfl | rfl
  · exact ⟨by decide,by decide,by decide,by decide,by decide⟩
  · exact ⟨by decide,by decide,by decide,by decide,by decide⟩
  · exact hlength
  · exact htype

variable {fs : FileSystem} {bytes method uri out content srcp : List UInt8} {req : Request}

/-- Of the reply with a file, `client_print` prints the whole file just when
the file has no NUL and `readline` finds no piece of one byte in it. -/
theorem client_prints_file (hp : Proper bytes method uri) (hr : Replies fs bytes out)
    (ho : outcome fs 0 method uri = .ok req) (hs : req.isStatic = true)
    (hopen : openOrDie fs req.filename = .done content)
    (hmap : mmapOrDie content req.filesize = .done srcp)
    (buf : CharArray MAXBUF) {conn : Conn} (hin : conn.input = fromClient out) {fuel : Nat}
    (hf : (pieces out).length ≤ fuel) :
    ∃ s', clientPrint buf fuel conn = .done s' ∧
      (s'.out = (fileLines req.filesize.toNat (requestGetFiletype req.filename)).flatMap
          (fun l => ascii "Header: " ++ l ++ [10]) ++ srcp ↔
        0 ∉ srcp ∧ ∀ p ∈ pieces srcp, 2 ≤ p.length) := by
  obtain ⟨size,hsize,hlt⟩ : ∃ size : Nat, req.filesize = size ∧ size < 10^10 := by
    have hpos : 0 < req.filesize := by
      by_contra hn
      simp [mmapOrDie,hn] at hmap
    obtain ⟨sbuf,_,_,hsize⟩ := (hp.vetted ho).admitted
    have hle : req.filesize < 2^31 := by
      rw [hsize,Int.bmod_def]
      omega
    exact ⟨req.filesize.toNat,by omega,by omega⟩
  have hwhole := hp.reply_whole hr ho hs hopen hmap
  have hout : out = staticHeader req.filesize (requestGetFiletype req.filename) ++ srcp :=
    hp.reply_unique hr (hp.replies (by rw [ho]; exact serves_static hs hopen hmap hwhole))
  obtain ⟨s',hs',hprint⟩ := clientPrint_prints buf hin hf
  have hall : listing (fun _ => true) id (pieces srcp) = srcp ↔
      0 ∉ srcp ∧ ∀ p ∈ pieces srcp, 2 ≤ p.length := by
    have hzero : 0 ∉ srcp ↔ ∀ p ∈ pieces srcp, 0 ∉ p := by
      have hmem : 0 ∈ srcp ↔ 0 ∈ (pieces srcp).flatten := by rw [pieces_flatten]
      rw [hmem,List.mem_flatten]
      grind
    have hiff := listing_eq_flatten fun p (hp : p ∈ pieces srcp) => pieces_ne_nil hp
    rw [pieces_flatten] at hiff
    rw [hiff,hzero]
    exact forall₂_and
  refine ⟨s',hs',?_⟩
  rw [hprint,hout,hsize,staticHeader_lines,List.append_assoc,
    printout_reply (fileLines_header hlt req.filename),Int.toNat_natCast,
    List.append_cancel_left_eq,hall]

theorem client_prints_file_hi : ∃ out fuel s',
    Replies (seenBy visitor (fun _ _ => none) (fileOf (ascii "hi\n")))
      (PythonText.encode (LoadClient.requestText "/a" "localhost")) out ∧
    clientPrint zeroed fuel (client out) = .done s' ∧
    s'.out = (fileLines 3 (ascii "text/plain")).flatMap (fun l => ascii "Header: " ++ l ++ [10]) ++
      ascii "hi\n" := by
  have hu : LoadClient.Sendable "/a" "localhost" :=
    ⟨by decide,LoadClient.plain_of_all (by decide),by decide,by decide⟩
  obtain ⟨fs,hfs⟩ : ∃ fs, fs = seenBy visitor (fun _ _ => none) (fileOf (ascii "hi\n")) := ⟨_,rfl⟩
  have hres : requestParseUri 0 (PythonText.encode "/a") = (true,ascii "./a",[]) := by decide
  have hst : fs.stat (ascii "./a") = some ⟨0o100644,3⟩ := by
    rw [hfs]
    rfl
  have hget : isGet (ascii "GET") = true := by decide
  have ho : outcome fs 0 (ascii "GET") (PythonText.encode "/a") =
      .ok ⟨0,ascii "./a",[],true,3⟩ := by
    rw [outcome,hget,if_pos rfl,hres,verdict,hst]
    rfl
  have hopen : openOrDie fs (ascii "./a") = .done (ascii "hi\n") := by
    rw [hfs]
    rfl
  have hmap : mmapOrDie (ascii "hi\n") 3 = .done (ascii "hi\n") := rfl
  obtain ⟨out,hr⟩ : ∃ out, Replies fs
      (PythonText.encode (LoadClient.requestText "/a" "localhost")) out :=
    ⟨_,hu.proper.replies (by rw [ho]; exact serves_static rfl hopen hmap ⟨by decide,by decide⟩)⟩
  have hin : (client out).input = fromClient out := rfl
  obtain ⟨s',hs',hiff⟩ := client_prints_file hu.proper hr ho rfl hopen hmap zeroed hin
    (Nat.le_refl _)
  have hpieces : pieces (ascii "hi\n") = [ascii "hi\n"] := by
    have hshort : ([104,105] : List UInt8).length < MAXBUF-1 := by decide
    have hline := pieces_shortLine (l := [104,105]) (by decide) hshort []
    rwa [pieces_nil] at hline
  refine ⟨out,_,s',hfs ▸ hr,hs',hiff.mpr ⟨by decide,?_⟩⟩
  rw [hpieces]
  decide

end Replies

end ConcurrentWebServer.Requests
