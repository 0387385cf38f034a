import ConcurrentWebServer.RequestHead
set_option autoImplicit false

/-! The outcomes of `request_parse`: an error page and a closed connection, or
a request for the buffer. -/

namespace ConcurrentWebServer.Requests
open Execution CStrings

structure ErrorPage where
  cause : List UInt8
  errnum : List UInt8
  shortmsg : List UInt8
  longmsg : List UInt8

def ErrorPage.body (p : ErrorPage) : List UInt8 := errorBody p.cause p.errnum p.shortmsg p.longmsg

def notImplemented (method : List UInt8) : ErrorPage :=
  ⟨method,ascii "501",ascii "Not Implemented",ascii "server does not implement this method"⟩

def notFound (filename : List UInt8) : ErrorPage :=
  ⟨filename,ascii "404",ascii "Not found",ascii "server could not find this file"⟩

def unreadable (filename : List UInt8) : ErrorPage :=
  ⟨filename,ascii "403",ascii "Forbidden",ascii "server could not read this file"⟩

def unrunnable (filename : List UInt8) : ErrorPage :=
  ⟨filename,ascii "403",ascii "Forbidden",ascii "server could not run this CGI program"⟩

def permitted (isStatic : Bool) (mode : Nat) : Bool :=
  S_ISREG mode && (if isStatic then S_IRUSR else S_IXUSR) &&& mode != 0

def verdict (fs : FileSystem) (fd : Nat) (resolved : Bool × List UInt8 × List UInt8) :
    Except ErrorPage Request :=
  match fs.stat resolved.2.1 with
  | none => .error (notFound resolved.2.1)
  | some sbuf =>
      if permitted resolved.1 sbuf.stMode then .ok
        { connFd := fd
          isStatic := resolved.1
          filesize := sbuf.stSize.bmod (2^32)
          filename := resolved.2.1.take (MAXBUF-1)
          cgiargs := resolved.2.2.take (MAXBUF-1) }
      else .error ((if resolved.1 then unreadable else unrunnable) resolved.2.1)

def conclude (v : Except ErrorPage Request) (conn : Conn) : Exec (Option Request × Conn) :=
  match v with
  | .error p => do
      let conn ← requestError conn p.cause p.errnum p.shortmsg p.longmsg
      let conn ← closeOrDie conn
      pure (none,conn)
  | .ok req => pure (some req,conn)

def requestDecide (fs : FileSystem) (f : Frame) (fuel : Nat) (fd : Nat) (conn : Conn) :
    Exec (Except ErrorPage Request × Conn) := do
  let (_,buf,conn) ← readline f.buf.1 MAXBUF conn
  let (method,uri,_) := sscanf3 (cstr buf) f.method.1 f.uri.1 f.version.1
  if !strcaseeq (cstr method) (ascii "GET") then
    pure (.error (notImplemented (cstr method)),conn)
  else
    let conn ← requestReadHeaders f.headers.1 fuel conn
    pure (verdict fs fd (requestParseUri f.below (cstr uri)),conn)

theorem requestParse_eq (fs : FileSystem) (f : Frame) (fuel fd : Nat) (conn : Conn) :
    requestParse fs f fuel fd conn =
      (requestDecide fs f fuel fd conn >>= fun p => conclude p.1 p.2) := by
  simp only [requestParse,requestDecide,bind_bind]
  congr 1
  funext p
  generalize sscanf3 (cstr p.2.1) f.method.1 f.uri.1 f.version.1 = arrays
  split_ifs with hm
  · rfl
  · rw [bind_bind]
    congr 1
    funext conn
    generalize requestParseUri f.below (cstr arrays.2.1) = resolved
    simp only [verdict,pure_eq,done_bind]
    cases fs.stat resolved.2.1 with
    | none => rfl
    | some sbuf =>
      cases hr : S_ISREG sbuf.stMode with
      | false =>
        cases hs : resolved.1 <;> simp [permitted,hr,conclude,unreadable,unrunnable]
      | true =>
        cases hs : resolved.1 with
        | false =>
          by_cases hx : S_IXUSR &&& sbuf.stMode = 0 <;>
            simp [permitted,hr,hx,conclude,unrunnable]
        | true =>
          by_cases hx : S_IRUSR &&& sbuf.stMode = 0 <;>
            simp [permitted,hr,hx,conclude,unreadable]

section Outcomes

def ErrorPage.chunks (p : ErrorPage) : List (List UInt8) :=
  [ascii "HTTP/1.0 " ++ p.errnum ++ ascii " " ++ p.shortmsg ++ ascii "\r\n",
   ascii "Content-Type: text/html\r\n",
   ascii "Content-Length: " ++ ascii (toString p.body.length) ++ ascii "\r\n\r\n",
   p.body]

def ErrorPage.bytes (p : ErrorPage) : List UInt8 := p.chunks.flatten

theorem requestError_eq (conn : Conn) (p : ErrorPage) :
    requestError conn p.cause p.errnum p.shortmsg p.longmsg = writeAll conn p.chunks := by
  simp [requestError,ErrorPage.chunks,ErrorPage.body,writeAll]

theorem conclude_error_eq (p : ErrorPage) (conn : Conn) :
    conclude (.error p) conn = (do
      let conn ← writeAll conn p.chunks
      let conn ← closeOrDie conn
      pure (none,conn)) := by
  rw [conclude,requestError_eq]

theorem conclude_error_returns {p : ErrorPage} {conn : Conn} (hopen : conn.isOpen = true) :
    (∃ r, conclude (.error p) conn = .done r) ↔ ∀ i < 4, conn.outcomes.get i ≠ .error := by
  rw [conclude_error_eq]
  constructor
  · rintro ⟨r,hr⟩ i hi he
    have hfail : ∃ i < p.chunks.length, conn.outcomes.get i = .error := ⟨i,hi,he⟩
    rw [writeAll_error conn hfail] at hr
    cases hr
  · intro h
    obtain ⟨sent,hs⟩ := writeAll_done conn (show ∀ i < p.chunks.length, _ from h)
    rw [hs]
    simp [closeOrDie,hopen]

/-- `-1` comes with a closed connection, `0` with an untouched one. -/
theorem conclude_done {v : Except ErrorPage Request} {conn : Conn} {r : Option Request × Conn}
    (h : conclude v conn = .done r) :
    (∃ p, v = .error p ∧ r.1 = none ∧ r.2.isOpen = false) ∨
      ∃ req, v = .ok req ∧ r = (some req,conn) := by
  cases v with
  | ok req =>
    cases h
    exact .inr ⟨req,rfl,rfl⟩
  | error p =>
    rw [conclude_error_eq] at h
    obtain ⟨conn₁,_,h⟩ := bind_eq_done.mp h
    obtain ⟨conn₂,hclose,h⟩ := bind_eq_done.mp h
    cases h
    refine .inl ⟨p,rfl,rfl,?_⟩
    obtain ⟨_,_,hc⟩ := bind_eq_done.mp hclose
    cases hc
    rfl

/-- What comes of a verdict when no write fails or falls short: the request,
and the bytes that are sent. -/
def answer : Except ErrorPage Request → Option Request × List UInt8
  | .error p => (none,p.bytes)
  | .ok req => (some req,[])

theorem conclude_const (v : Except ErrorPage Request) {conn : Conn} (hopen : conn.isOpen = true)
    (hall : conn.outcomes = Stream'.const .all) :
    conclude v conn = .done ((answer v).1,
      { conn with sent := conn.sent ++ (answer v).2, isOpen := (answer v).1.isSome }) := by
  cases v with
  | ok req => simp [conclude,answer,← hopen]
  | error p =>
    rw [conclude_error_eq,writeAll_const conn hall]
    simp [closeOrDie,hopen,ErrorPage.bytes,answer]

def client (bytes : List UInt8) : Conn := Conn.fresh (fromClient bytes) (Stream'.const .all)

def Parses (fs : FileSystem) (f : Frame) (fd : Nat) (conn : Conn) (r : Option Request × Conn) :
    Prop :=
  ∃ fuel, requestParse fs f fuel fd conn = .done r

def Frame.scan (f : Frame) (line : Piece) : List UInt8 × List UInt8 × List UInt8 :=
  sscanf3 (cstr (line.fill f.buf.1)) f.method.1 f.uri.1 f.version.1

def Frame.method' (f : Frame) (line : Piece) : List UInt8 := cstr (f.scan line).1

def Frame.uri' (f : Frame) (line : Piece) : List UInt8 := cstr (f.scan line).2.1

def isGet (method : List UInt8) : Bool := strcaseeq method (ascii "GET")

variable {fs : FileSystem} {f : Frame} {fd : Nat} {conn : Conn} {r : Option Request × Conn}

theorem requestDecide_step (fuel : Nat) :
    requestDecide fs f fuel fd conn =
      if (headLine conn.input).stop = .error then .abort
      else if isGet (f.method' (headLine conn.input)) = true then do
        let conn' ← requestReadHeaders f.headers.1 fuel
          { conn with input := (headLine conn.input).rest }
        pure (verdict fs fd (requestParseUri f.below (f.uri' (headLine conn.input))),conn')
      else .done (.error (notImplemented (f.method' (headLine conn.input))),
        { conn with input := (headLine conn.input).rest }) := by
  simp only [requestDecide,readline_headLine,isGet,Frame.method',Frame.uri',Frame.scan]
  by_cases he : (headLine conn.input).stop = .error
  · simp [he]
  · simp only [he,if_false,done_bind]
    by_cases hm : strcaseeq (cstr (sscanf3 (cstr ((headLine conn.input).fill f.buf.1)) f.method.1
      f.uri.1 f.version.1).1) (ascii "GET") = true
    · simp only [hm,Bool.not_true,Bool.false_eq_true,if_false,if_true]
    · simp only [hm,Bool.not_false,Bool.false_eq_true,if_false,if_true,pure_eq]

def Decides (fs : FileSystem) (f : Frame) (fd : Nat) (conn : Conn)
    (v : Except ErrorPage Request) (conn' : Conn) : Prop :=
  ∃ fuel, requestDecide fs f fuel fd conn = .done (v,conn')

theorem parses_iff : Parses fs f fd conn r ↔
    ∃ v conn', Decides fs f fd conn v conn' ∧ conclude v conn' = .done r := by
  constructor
  · rintro ⟨fuel,h⟩
    rw [requestParse_eq] at h
    obtain ⟨p,hp,hc⟩ := bind_eq_done.mp h
    exact ⟨p.1,p.2,⟨fuel,hp⟩,hc⟩
  · rintro ⟨v,conn',⟨fuel,hd⟩,hc⟩
    refine ⟨fuel,?_⟩
    rw [requestParse_eq]
    exact bind_eq_done.mpr ⟨_,hd,hc⟩

variable {v : Except ErrorPage Request} {conn' : Conn}

theorem decides_ne_error (h : Decides fs f fd conn v conn') :
    (headLine conn.input).stop ≠ .error := by
  obtain ⟨fuel,h⟩ := h
  intro he
  rw [requestDecide_step,if_pos he] at h
  cases h

theorem decides_other (hs : (headLine conn.input).stop ≠ .error)
    (hm : isGet (f.method' (headLine conn.input)) = false) :
    Decides fs f fd conn v conn' ↔
      v = .error (notImplemented (f.method' (headLine conn.input))) ∧
        conn' = { conn with input := (headLine conn.input).rest } := by
  simp only [Decides,requestDecide_step,hs,hm,if_false,Bool.false_eq_true,exists_const,
    Exec.done.injEq,Prod.mk.injEq]
  exact and_congr eq_comm eq_comm

theorem decides_get (hs : (headLine conn.input).stop ≠ .error)
    (hm : isGet (f.method' (headLine conn.input)) = true) :
    Decides fs f fd conn v conn' ↔
      ∃ s, HeadEnds f.headers.1 (headLine conn.input).rest s ∧
        v = verdict fs fd (requestParseUri f.below (f.uri' (headLine conn.input))) ∧
        conn' = { conn with input := s } := by
  simp only [Decides,requestDecide_step,hs,hm,if_false,if_true]
  constructor
  · rintro ⟨fuel,h⟩
    obtain ⟨c,hc,hv⟩ := bind_eq_done.mp h
    obtain ⟨s,hends,rfl⟩ := requestReadHeaders_ends hc
    cases hv
    exact ⟨s,hends,rfl,rfl⟩
  · rintro ⟨s,hends,rfl,rfl⟩
    obtain ⟨fuel,hf⟩ := hends.done
    exact ⟨fuel,bind_eq_done.mpr ⟨_,hf { conn with input := (headLine conn.input).rest } rfl,rfl⟩⟩

omit f conn r v conn' in
theorem verdict_ok {resolved : Bool × List UInt8 × List UInt8} {req : Request}
    (h : verdict fs fd resolved = .ok req) :
    ∃ sbuf, fs.stat resolved.2.1 = some sbuf ∧ permitted resolved.1 sbuf.stMode = true ∧
      req =
        { connFd := fd
          isStatic := resolved.1
          filesize := sbuf.stSize.bmod (2^32)
          filename := resolved.2.1.take (MAXBUF-1)
          cgiargs := resolved.2.2.take (MAXBUF-1) } := by
  cases hs : fs.stat resolved.2.1 with
  | none => simp [verdict,hs] at h
  | some sbuf =>
    cases hp : permitted resolved.1 sbuf.stMode with
    | false => simp [verdict,hs,hp] at h
    | true =>
      simp only [verdict,hs,hp,if_true,Except.ok.injEq] at h
      exact ⟨sbuf,rfl,hp,h.symm⟩

theorem decides_ok {req : Request} (h : Decides fs f fd conn (.ok req) conn') :
    isGet (f.method' (headLine conn.input)) = true ∧
    HeadEnds f.headers.1 (headLine conn.input).rest conn'.input ∧
    verdict fs fd (requestParseUri f.below (f.uri' (headLine conn.input))) = .ok req ∧
    conn' = { conn with input := conn'.input } := by
  have he := decides_ne_error h
  cases hm : isGet (f.method' (headLine conn.input)) with
  | false => cases ((decides_other he hm).mp h).1
  | true =>
    obtain ⟨s,hs,hv,rfl⟩ := (decides_get he hm).mp h
    exact ⟨rfl,hs,hv.symm,rfl⟩

theorem parses_ne_error (h : Parses fs f fd conn r) : (headLine conn.input).stop ≠ .error := by
  obtain ⟨_,_,hd,_⟩ := parses_iff.mp h
  exact decides_ne_error hd

omit v conn' in
theorem parses_other (hs : (headLine conn.input).stop ≠ .error)
    (hm : isGet (f.method' (headLine conn.input)) = false) :
    Parses fs f fd conn r ↔
      conclude (.error (notImplemented (f.method' (headLine conn.input))))
        { conn with input := (headLine conn.input).rest } = .done r := by
  rw [parses_iff]
  simp only [decides_other hs hm]
  constructor
  · rintro ⟨_,_,⟨rfl,rfl⟩,h⟩
    exact h
  · intro h
    exact ⟨_,_,⟨rfl,rfl⟩,h⟩

omit v conn' in
theorem parses_get (hs : (headLine conn.input).stop ≠ .error)
    (hm : isGet (f.method' (headLine conn.input)) = true) :
    Parses fs f fd conn r ↔
      ∃ s, HeadEnds f.headers.1 (headLine conn.input).rest s ∧
        conclude (verdict fs fd (requestParseUri f.below (f.uri' (headLine conn.input))))
          { conn with input := s } = .done r := by
  rw [parses_iff]
  simp only [decides_get hs hm]
  constructor
  · rintro ⟨_,_,⟨s,hends,rfl,rfl⟩,h⟩
    exact ⟨s,hends,h⟩
  · rintro ⟨s,hends,h⟩
    exact ⟨_,_,⟨s,hends,rfl,rfl⟩,h⟩

theorem parses_some {req : Request} {conn' : Conn} (h : Parses fs f fd conn (some req,conn')) :
    isGet (f.method' (headLine conn.input)) = true ∧
    HeadEnds f.headers.1 (headLine conn.input).rest conn'.input ∧
    verdict fs fd (requestParseUri f.below (f.uri' (headLine conn.input))) = .ok req ∧
    conn' = { conn with input := conn'.input } := by
  obtain ⟨v,c,hd,hc⟩ := parses_iff.mp h
  rcases conclude_done hc with ⟨_,_,hr,_⟩ | ⟨q,rfl,hr⟩
  · cases hr
  · cases hr
    exact decides_ok hd

end Outcomes

end ConcurrentWebServer.Requests
