import ConcurrentWebServer.ConnectionFailure
import ConcurrentWebServer.RequestIsolation
set_option autoImplicit false

/-! `request_handle` against the two functions it was cut into. -/

namespace ConcurrentWebServer.Requests
open Execution CStrings

section Cut

variable {fs : FileSystem} {f : Frame} {conn : Conn}

def Fits (resolved : Bool × List UInt8 × List UInt8) : Prop :=
  resolved.2.1.length < MAXBUF ∧ resolved.2.2.length < MAXBUF

instance (resolved : Bool × List UInt8 × List UInt8) : Decidable (Fits resolved) :=
  inferInstanceAs (Decidable (_ ∧ _))

def parseThenServe (fs : FileSystem) (f : Frame) (fuel fd : Nat) (conn : Conn) : Exec Conn := do
  let (r,conn) ← requestParse fs f fuel fd conn
  match r with
  | none => pure conn
  | some req => requestServe fs req conn

theorem codeBaseServe_eq (fuel fd : Nat)
    (hfit : Fits (requestParseUri f.below (f.uri' (headLine conn.input)))) :
    codeBaseServe fs f fuel conn = parseThenServe fs f fuel fd conn := by
  simp only [Frame.uri',Frame.scan] at hfit
  simp only [codeBaseServe,parseThenServe,requestHandle,requestParse,readline_headLine]
  by_cases he : (headLine conn.input).stop = .error
  · simp [he]
  simp only [he,if_false,done_bind]
  generalize sscanf3 (cstr ((headLine conn.input).fill f.buf.1)) f.method.1 f.uri.1 f.version.1 =
    arrays at hfit ⊢
  by_cases hm : strcaseeq (cstr arrays.1) (ascii "GET") = true
  · simp only [hm,Bool.not_true,Bool.false_eq_true,if_false,bind_bind]
    congr 1
    funext conn'
    generalize requestParseUri f.below (cstr arrays.2.1) = resolved at hfit ⊢
    have hname : resolved.2.1.take (MAXBUF-1) = resolved.2.1 :=
      List.take_of_length_le (by have := hfit.1; omega)
    have hargs : resolved.2.2.take (MAXBUF-1) = resolved.2.2 :=
      List.take_of_length_le (by have := hfit.2; omega)
    cases fs.stat resolved.2.1 with
    | none => simp only [bind_bind,pure_eq,done_bind,bind_done]
    | some sbuf =>
      cases hs : resolved.1 with
      | false =>
        by_cases hb : (!S_ISREG sbuf.stMode || S_IXUSR &&& sbuf.stMode == 0) = true <;>
          simp [hb,hname,hargs,bind_bind,requestServe]
      | true =>
        by_cases hb : (!S_ISREG sbuf.stMode || S_IRUSR &&& sbuf.stMode == 0) = true <;>
          simp [hb,hname,hargs,bind_bind,requestServe]
  · simp only [hm,Bool.not_false,if_true,bind_bind,pure_eq,done_bind,bind_done]

end Cut

section Proper

/-- A first line with three tokens, the first two of them `method` and `uri`,
a blank line behind the headers, and strings that fit their arrays. -/
structure Proper (bytes method uri : List UInt8) : Prop where
  tokens : ∃ rest rest' version rest'',
    scanToken (cstr (takeLine (MAXBUF-1) bytes)) = some (method,rest) ∧
    scanToken rest = some (uri,rest') ∧ scanToken rest' = some (version,rest'')
  blank : crlf ∈ pieces (bytes.drop (takeLine (MAXBUF-1) bytes).length)
  fits : Fits (requestParseUri 0 uri)

def outcome (fs : FileSystem) (fd : Nat) (method uri : List UInt8) : Except ErrorPage Request :=
  if isGet method then verdict fs fd (requestParseUri 0 uri) else .error (notImplemented method)

variable {fs : FileSystem} {fd : Nat} {bytes method uri : List UInt8}

theorem Proper.not_single (hp : Proper bytes method uri) (c : UInt8) : bytes ≠ [c] := by
  rintro rfl
  obtain ⟨rest,rest',_,_,hm,hu,_⟩ := hp.tokens
  obtain ⟨hm₀,_,b,_,hline⟩ := scanToken_some hm
  obtain ⟨hu₀,_,b',_,rfl⟩ := scanToken_some hu
  have hcstr : (cstr (takeLine (MAXBUF-1) [c])).length ≤ (takeLine (MAXBUF-1) [c]).length :=
    (List.takeWhile_prefix _).length_le
  have hlen : (takeLine (MAXBUF-1) [c]).length ≤ 1 := takeLine_length_le (MAXBUF-1) [c]
  have hm₁ := List.length_pos_iff.mpr hm₀
  have hu₁ := List.length_pos_iff.mpr hu₀
  rw [hline] at hcstr
  simp only [List.length_append] at hcstr
  omega

theorem Proper.method_eq (hp : Proper bytes method uri) (f : Frame) :
    f.method' (headLine (client bytes).input) = method := by
  obtain ⟨_,_,_,_,hm,_⟩ := hp.tokens
  exact method_line (fun c _ => hp.not_single c) hm

theorem Proper.uri_eq (hp : Proper bytes method uri) (f : Frame) :
    f.uri' (headLine (client bytes).input) = uri := by
  obtain ⟨rest,_,_,_,hm,hu,_⟩ := hp.tokens
  obtain ⟨_,_,b,_,hline⟩ := scanToken_some hm
  have h0 : 0 ∉ rest := by
    intro h
    apply not_mem_cstr (takeLine (MAXBUF-1) bytes)
    rw [hline]
    exact List.mem_append_right _ h
  rw [uri_line (fun c _ => hp.not_single c) hm hu]
  exact cstr_of_not_mem (scanToken_not_mem h0 hu)

theorem Proper.resolved (hp : Proper bytes method uri) (below : UInt8) :
    requestParseUri below uri = requestParseUri 0 uri := by
  obtain ⟨_,_,_,_,_,hu,_⟩ := hp.tokens
  obtain ⟨hne,_⟩ := scanToken_some hu
  simp only [requestParseUri,List.getLast_cons hne]

theorem Proper.decides (hp : Proper bytes method uri) (fs : FileSystem) (fd : Nat) (f : Frame) :
    ∃ s, Decides fs f fd (client bytes) (outcome fs fd method uri)
      { client bytes with input := s } := by
  cases hm : isGet method with
  | false =>
    refine ⟨_,(decides_other client_line_ok (by rw [hp.method_eq,hm])).mpr ⟨?_,rfl⟩⟩
    simp [outcome,hm,hp.method_eq]
  | true =>
    obtain ⟨s,hs⟩ := client_head_ends.mpr (show Drained f.headers.1 _ from .inl hp.blank)
    refine ⟨s,(decides_get client_line_ok (by rw [hp.method_eq,hm])).mpr ⟨s,hs,?_,rfl⟩⟩
    simp [outcome,hm,hp.uri_eq,hp.resolved]

theorem Decides.unique {f : Frame} {conn c c' : Conn} {v v' : Except ErrorPage Request}
    (h : Decides fs f fd conn v c) (h' : Decides fs f fd conn v' c') : v = v' ∧ c = c' := by
  have he := decides_ne_error h
  cases hm : isGet (f.method' (headLine conn.input)) with
  | false =>
    obtain ⟨rfl,rfl⟩ := (decides_other he hm).mp h
    obtain ⟨rfl,rfl⟩ := (decides_other he hm).mp h'
    exact ⟨rfl,rfl⟩
  | true =>
    obtain ⟨s,hs,rfl,rfl⟩ := (decides_get he hm).mp h
    obtain ⟨s',hs',rfl,rfl⟩ := (decides_get he hm).mp h'
    rw [hs.unique hs']
    exact ⟨rfl,rfl⟩

theorem Decides.input {f : Frame} {conn c : Conn} {v : Except ErrorPage Request}
    (h : Decides fs f fd conn v c) : c = { conn with input := c.input } := by
  have he := decides_ne_error h
  cases hm : isGet (f.method' (headLine conn.input)) with
  | false =>
    obtain ⟨_,rfl⟩ := (decides_other he hm).mp h
    rfl
  | true =>
    obtain ⟨_,_,_,rfl⟩ := (decides_get he hm).mp h
    rfl

theorem Proper.decided (hp : Proper bytes method uri) {f : Frame} {v : Except ErrorPage Request}
    {conn' : Conn} (h : Decides fs f fd (client bytes) v conn') :
    v = outcome fs fd method uri ∧ conn' = { client bytes with input := conn'.input } := by
  obtain ⟨s,hs⟩ := hp.decides fs fd f
  obtain ⟨rfl,rfl⟩ := h.unique hs
  exact ⟨rfl,rfl⟩

structure Vetted (fs : FileSystem) (uri : List UInt8) (req : Request) : Prop where
  resolved : requestParseUri 0 uri = (req.isStatic,req.filename,req.cgiargs)
  admitted : ∃ sbuf, fs.stat req.filename = some sbuf ∧
    permitted req.isStatic sbuf.stMode = true ∧ req.filesize = sbuf.stSize.bmod (2^32)

theorem Proper.vetted (hp : Proper bytes method uri) {req : Request}
    (h : outcome fs fd method uri = .ok req) : Vetted fs uri req := by
  cases hm : isGet method with
  | false => simp [outcome,hm] at h
  | true =>
    simp only [outcome,hm,if_true] at h
    obtain ⟨sbuf,hstat,hperm,rfl⟩ := verdict_ok h
    obtain ⟨hname,hargs⟩ := hp.fits
    have htake : (requestParseUri 0 uri).2.1.take (MAXBUF-1) = (requestParseUri 0 uri).2.1 :=
      List.take_of_length_le (by omega)
    have htake' : (requestParseUri 0 uri).2.2.take (MAXBUF-1) = (requestParseUri 0 uri).2.2 :=
      List.take_of_length_le (by omega)
    simp only [htake,htake']
    exact ⟨rfl,sbuf,hstat,hperm,rfl⟩

end Proper

section Replies

/-- What the single-threaded server sends to a client that sends `bytes`,
whatever is on its stack; the connection is closed then. -/
def Replies (fs : FileSystem) (bytes out : List UInt8) : Prop :=
  ∀ f : Frame, ∃ fuel conn, codeBaseServe fs f fuel (client bytes) = .done conn ∧
    conn.sent = out ∧ conn.isOpen = false

def Serves (fs : FileSystem) (req : Request) (out : List UInt8) : Prop :=
  ∀ conn : Conn, conn.isOpen = true → conn.outcomes = Stream'.const .all →
    requestServe fs req conn = .done { conn with sent := conn.sent ++ out, isOpen := false }

def Answers (fs : FileSystem) (out : List UInt8) : Except ErrorPage Request → Prop
  | .error p => out = p.bytes
  | .ok req => Serves fs req out

variable {fs : FileSystem} {fd : Nat} {bytes method uri out : List UInt8} {req : Request}

theorem writeOrDie_const {conn : Conn} (h : conn.outcomes = Stream'.const .all) (p : List UInt8) :
    writeOrDie conn p = .done { conn with sent := conn.sent ++ p } := by
  have hw := writeAll_const conn h [p]
  simpa [writeAll] using hw

def Whole (srcp : List UInt8) (filesize : Int) : Prop :=
  srcp ≠ [] ∧ filesize.toNat ≤ srcp.length

theorem whole_file {content : List UInt8} (hne : content ≠ []) : Whole content content.length :=
  ⟨hne,by rw [Int.toNat_natCast]⟩

theorem writeMapped_whole {conn : Conn} (hall : conn.outcomes = Stream'.const .all)
    {srcp : List UInt8} {size : Int} (h : Whole srcp size) :
    writeMapped conn srcp size = .done { conn with sent := conn.sent ++ srcp } := by
  have hne : srcp.isEmpty = false := by simpa using h.1
  have hreach : conn.outcomes.head.reach size.toNat = size.toNat := by rw [hall]; rfl
  simp [writeMapped,hne,hreach,h.2,writeOrDie_const hall]

theorem writeMapped_needs {conn conn' : Conn} (hall : conn.outcomes = Stream'.const .all)
    {srcp : List UInt8} {size : Int} (h : writeMapped conn srcp size = .done conn') :
    Whole srcp size := by
  have hreach : conn.outcomes.head.reach size.toNat = size.toNat := by rw [hall]; rfl
  obtain ⟨_,hc,_⟩ := bind_eq_done.mp h
  unfold check at hc
  split at hc
  · rename_i hok
    simpa [hreach,Whole] using hok
  · cases hc

theorem serves_static {content srcp : List UInt8} (hs : req.isStatic = true)
    (ho : openOrDie fs req.filename = .done content)
    (hm : mmapOrDie content req.filesize = .done srcp) (hw : Whole srcp req.filesize) :
    Serves fs req (staticHeader req.filesize (requestGetFiletype req.filename) ++ srcp) := by
  intro conn hopen hall
  have hwrite : ∀ sent isOpen, writeMapped { conn with sent := sent, isOpen := isOpen } srcp
      req.filesize = .done { conn with sent := sent ++ srcp, isOpen := isOpen } := by
    intro sent isOpen
    apply writeMapped_whole
    · exact hall
    · exact hw
  simp [requestServe,hs,requestServeStatic,ho,hm,writeOrDie_const hall,hwrite,closeOrDie,hopen]

theorem serves_dynamic {output : List UInt8} (hs : req.isStatic = false)
    (hx : fs.execve req.filename req.cgiargs = some output) :
    Serves fs req (dynamicHeader ++ output) := by
  intro conn hopen hall
  simp [requestServe,hs,requestServeDynamic,writeOrDie_const hall,hx,closeOrDie,hopen]

theorem codeBaseServe_proper (hp : Proper bytes method uri) (f : Frame) (fuel fd : Nat) :
    codeBaseServe fs f fuel (client bytes) = parseThenServe fs f fuel fd (client bytes) :=
  codeBaseServe_eq fuel fd (by rw [hp.uri_eq,hp.resolved]; exact hp.fits)

theorem Proper.replies (hp : Proper bytes method uri)
    (h : Answers fs out (outcome fs fd method uri)) : Replies fs bytes out := by
  intro f
  obtain ⟨s,fuel,hd⟩ := hp.decides fs fd f
  refine ⟨fuel,{ client bytes with input := s, sent := out, isOpen := false },?_,rfl,rfl⟩
  rw [codeBaseServe_proper hp f fuel fd,parseThenServe,requestParse_eq,hd,done_bind]
  cases hv : outcome fs fd method uri with
  | error p =>
    rw [hv] at h
    cases h
    rw [conclude_const (.error p) rfl rfl]
    rfl
  | ok req =>
    rw [hv] at h
    exact h { client bytes with input := s } rfl rfl

theorem Proper.reply_unique (hp : Proper bytes method uri) {out' : List UInt8}
    (h : Replies fs bytes out) (h' : Replies fs bytes out') : out = out' := by
  obtain ⟨n,c,hc,rfl,_⟩ := h .zeros
  obtain ⟨n',c',hc',rfl,_⟩ := h' .zeros
  rw [codeBaseServe_proper hp _ _ 0,parseThenServe,requestParse_eq] at hc hc'
  simp only [bind_bind] at hc hc'
  obtain ⟨p,hd,hc⟩ := bind_eq_done.mp hc
  obtain ⟨p',hd',hc'⟩ := bind_eq_done.mp hc'
  have hpp : p = p' := by
    obtain ⟨h₁,h₂⟩ := Decides.unique ⟨n,hd⟩ ⟨n',hd'⟩
    exact Prod.ext h₁ h₂
  rw [hpp,hc'] at hc
  cases hc
  rfl

theorem Proper.reply_whole (hp : Proper bytes method uri) (h : Replies fs bytes out)
    (ho : outcome fs fd method uri = .ok req) (hs : req.isStatic = true)
    {content srcp : List UInt8} (hopen : openOrDie fs req.filename = .done content)
    (hmap : mmapOrDie content req.filesize = .done srcp) : Whole srcp req.filesize := by
  obtain ⟨n,c,hc,_⟩ := h .zeros
  rw [codeBaseServe_proper hp _ _ fd,parseThenServe,requestParse_eq] at hc
  simp only [bind_bind] at hc
  obtain ⟨⟨v,conn⟩,hd,hc⟩ := bind_eq_done.mp hc
  obtain ⟨rfl,hconn⟩ := hp.decided ⟨n,hd⟩
  have hall : conn.outcomes = Stream'.const .all := by
    rw [hconn]
    rfl
  rw [ho] at hc
  simp only [conclude,pure_eq,done_bind,requestServe,hs,if_true,requestServeStatic,hopen,hmap,
    writeOrDie_const hall,bind_bind] at hc
  obtain ⟨_,hwrite,_⟩ := bind_eq_done.mp hc
  refine writeMapped_needs ?_ hwrite
  exact hall

end Replies

end ConcurrentWebServer.Requests
