import ConcurrentWebServer.IoHelper
import Mathlib.Algebra.Group.Nat.Defs
set_option autoImplicit false

/-! request.c. A string that outgrows its array is kept whole: that strings
fit is a statement about their lengths, not a part of the model. -/

namespace ConcurrentWebServer.Requests
open Execution CStrings

def MAXBUF : Nat := 8192

abbrev CharArray (n : Nat) := { a : List UInt8 // a.length = n }

def CharArray.holding (n : Nat) (s : List UInt8) (h : s.length ≤ n) : CharArray n :=
  ⟨s ++ List.replicate (n-s.length) 0,by simp; omega⟩

structure Stat where
  stMode : Nat
  stSize : Int
  deriving DecidableEq, Repr

def S_ISREG (mode : Nat) : Bool := mode &&& 0o170000 == 0o100000

def S_IRUSR : Nat := 0o400

def S_IXUSR : Nat := 0o100

/-- What the paths under the base directory lead to: for `stat`, for
`open(O_RDONLY)` and for `execve`, which here stands for all that the program
writes to its standard output, given its `QUERY_STRING`. -/
structure FileSystem where
  stat : List UInt8 → Option Stat
  contents : List UInt8 → Option (List UInt8)
  execve : List UInt8 → List UInt8 → Option (List UInt8)

structure Request where
  connFd : Nat
  filename : List UInt8
  cgiargs : List UInt8
  isStatic : Bool
  filesize : Int
  deriving DecidableEq, Repr

def errorBody (cause errnum shortmsg longmsg : List UInt8) : List UInt8 :=
  ascii "<!doctype html>\r\n<head>\r\n  <title>OSTEP WebServer Error</title>\r\n</head>\r\n" ++
    ascii "<body>\r\n  <h2>" ++ errnum ++ ascii ": " ++ shortmsg ++ ascii "</h2>\r\n  <p>" ++
    longmsg ++ ascii ": " ++ cause ++ ascii "</p>\r\n</body>\r\n</html>\r\n"

def requestError (conn : Conn) (cause errnum shortmsg longmsg : List UInt8) : Exec Conn := do
  let body := errorBody cause errnum shortmsg longmsg
  let conn ← writeOrDie conn (ascii "HTTP/1.0 " ++ errnum ++ ascii " " ++ shortmsg ++ ascii "\r\n")
  let conn ← writeOrDie conn (ascii "Content-Type: text/html\r\n")
  let conn ← writeOrDie conn
    (ascii "Content-Length: " ++ ascii (toString body.length) ++ ascii "\r\n\r\n")
  writeOrDie conn body

def requestReadHeaders (buf : List UInt8) (fuel : Nat) (conn : Conn) : Exec Conn := do
  let (_,buf,conn) ← readline buf MAXBUF conn
  let (_,conn) ← loop (fun s => cstr s.1 != ascii "\r\n")
    (fun s => do
      let (_,buf,conn) ← readline s.1 MAXBUF s.2
      pure (buf,conn)) fuel (buf,conn)
  pure conn

/-- `(is_static, filename, cgiargs)`. `below` is the byte in front of the
array, the one `uri[strlen(uri) - 1]` reads from the empty string. -/
def requestParseUri (below : UInt8) (uri : List UInt8) : Bool × List UInt8 × List UInt8 :=
  if !strstr uri (ascii "cgi") then
    let filename := ascii "." ++ uri
    (true,if (below :: uri).getLast (by simp) == 47 then filename ++ ascii "index.html"
      else filename,[])
  else (false,ascii "." ++ uri.takeWhile (· != 63),(uri.dropWhile (· != 63)).drop 1)

def requestGetFiletype (filename : List UInt8) : List UInt8 :=
  if strstr filename (ascii ".html") then ascii "text/html"
  else if strstr filename (ascii ".gif") then ascii "image/gif"
  else if strstr filename (ascii ".jpg") then ascii "image/jpeg"
  else ascii "text/plain"

def openOrDie (fs : FileSystem) (filename : List UInt8) : Exec (List UInt8) :=
  match fs.contents filename with
  | some content => pure content
  | none => .abort

def pageEnd (n : Nat) : Nat := n+(4096-n % 4096) % 4096

/-- What can be read of a mapping of `len` bytes: the file, and zeros up to the
end of its last page. -/
def mapped (content : List UInt8) (len : Nat) : List UInt8 :=
  (content ++ List.replicate (pageEnd content.length-content.length) 0).take len

/-- A length of zero is invalid, and a negative one too large once it is a
`size_t`. -/
def mmapOrDie (content : List UInt8) (len : Int) : Exec (List UInt8) := do
  check (decide (0 < len))
  pure (mapped content len.toNat)

/-- `srcp` stands for the bytes of the mapping that can be read. To write on
behind them is a bad address, unless the kernel has stopped before. -/
def writeMapped (conn : Conn) (srcp : List UInt8) (filesize : Int) : Exec Conn := do
  check (!srcp.isEmpty && decide (conn.outcomes.head.reach filesize.toNat ≤ srcp.length))
  writeOrDie conn srcp

def staticHeader (filesize : Int) (filetype : List UInt8) : List UInt8 :=
  ascii "HTTP/1.0 200 OK\r\nServer: OSTEP WebServer\r\nContent-Length: " ++
    ascii (toString filesize) ++ ascii "\r\nContent-Type: " ++ filetype ++ ascii "\r\n\r\n"

def requestServeStatic (fs : FileSystem) (filename : List UInt8) (filesize : Int) (conn : Conn) :
    Exec Conn := do
  let filetype := requestGetFiletype filename
  let content ← openOrDie fs filename
  let srcp ← mmapOrDie content filesize
  let conn ← writeOrDie conn (staticHeader filesize filetype)
  writeMapped conn srcp filesize

def dynamicHeader : List UInt8 := ascii "HTTP/1.0 200 OK\r\nServer: OSTEP WebServer\r\n"

/-- The child writes to the connection in its own process, and is waited for.
When its `execve` fails it dies of its own assertion. -/
def requestServeDynamic (fs : FileSystem) (filename cgiargs : List UInt8) (conn : Conn) :
    Exec Conn := do
  let conn ← writeOrDie conn dynamicHeader
  pure { conn with sent := conn.sent ++ (fs.execve filename cgiargs).getD [] }

/-- The arrays of `request_parse` and `request_read_headers` before they are
written, and the byte in front of `uri`. -/
structure Frame where
  buf : CharArray MAXBUF
  method : CharArray MAXBUF
  uri : CharArray MAXBUF
  version : CharArray MAXBUF
  headers : CharArray MAXBUF
  below : UInt8

def zeroed : CharArray MAXBUF := CharArray.holding MAXBUF [] (by decide)

def Frame.zeros : Frame := ⟨zeroed,zeroed,zeroed,zeroed,zeroed,0⟩

def requestHandle (fs : FileSystem) (f : Frame) (fuel : Nat) (conn : Conn) : Exec Conn := do
  let (_,buf,conn) ← readline f.buf.1 MAXBUF conn
  let (method,uri,_) := sscanf3 (cstr buf) f.method.1 f.uri.1 f.version.1
  if !strcaseeq (cstr method) (ascii "GET") then
    requestError conn (cstr method) (ascii "501") (ascii "Not Implemented")
      (ascii "server does not implement this method")
  else
    let conn ← requestReadHeaders f.headers.1 fuel conn
    let (isStatic,filename,cgiargs) := requestParseUri f.below (cstr uri)
    match fs.stat filename with
    | none =>
        requestError conn filename (ascii "404") (ascii "Not found")
          (ascii "server could not find this file")
    | some sbuf =>
        if isStatic then
          if !S_ISREG sbuf.stMode || S_IRUSR &&& sbuf.stMode == 0 then
            requestError conn filename (ascii "403") (ascii "Forbidden")
              (ascii "server could not read this file")
          else requestServeStatic fs filename (sbuf.stSize.bmod (2^32)) conn
        else
          if !S_ISREG sbuf.stMode || S_IXUSR &&& sbuf.stMode == 0 then
            requestError conn filename (ascii "403") (ascii "Forbidden")
              (ascii "server could not run this CGI program")
          else requestServeDynamic fs filename cgiargs conn

/-- The body of the loop in CodeBase/wserver.c. -/
def codeBaseServe (fs : FileSystem) (f : Frame) (fuel : Nat) (conn : Conn) : Exec Conn := do
  let conn ← requestHandle fs f fuel conn
  closeOrDie conn

/-- Returns with `none` for `-1`. -/
def requestParse (fs : FileSystem) (f : Frame) (fuel : Nat) (fd : Nat) (conn : Conn) :
    Exec (Option Request × Conn) := do
  let (_,buf,conn) ← readline f.buf.1 MAXBUF conn
  let (method,uri,_) := sscanf3 (cstr buf) f.method.1 f.uri.1 f.version.1
  if !strcaseeq (cstr method) (ascii "GET") then
    let conn ← requestError conn (cstr method) (ascii "501") (ascii "Not Implemented")
      (ascii "server does not implement this method")
    let conn ← closeOrDie conn
    pure (none,conn)
  else
    let conn ← requestReadHeaders f.headers.1 fuel conn
    let (isStatic,filename,cgiargs) := requestParseUri f.below (cstr uri)
    match fs.stat filename with
    | none =>
        let conn ← requestError conn filename (ascii "404") (ascii "Not found")
          (ascii "server could not find this file")
        let conn ← closeOrDie conn
        pure (none,conn)
    | some sbuf =>
        if isStatic && (!S_ISREG sbuf.stMode || S_IRUSR &&& sbuf.stMode == 0) then
          let conn ← requestError conn filename (ascii "403") (ascii "Forbidden")
            (ascii "server could not read this file")
          let conn ← closeOrDie conn
          pure (none,conn)
        else if !isStatic && (!S_ISREG sbuf.stMode || S_IXUSR &&& sbuf.stMode == 0) then
          let conn ← requestError conn filename (ascii "403") (ascii "Forbidden")
            (ascii "server could not run this CGI program")
          let conn ← closeOrDie conn
          pure (none,conn)
        else
          pure (some
            { connFd := fd
              isStatic := isStatic
              filesize := sbuf.stSize.bmod (2^32)
              filename := filename.take (MAXBUF-1)
              cgiargs := cgiargs.take (MAXBUF-1) },conn)

def requestServe (fs : FileSystem) (req : Request) (conn : Conn) : Exec Conn := do
  let conn ← if req.isStatic then requestServeStatic fs req.filename req.filesize conn
    else requestServeDynamic fs req.filename req.cgiargs conn
  closeOrDie conn

end ConcurrentWebServer.Requests
