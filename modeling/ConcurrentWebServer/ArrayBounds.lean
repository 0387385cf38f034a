import ConcurrentWebServer.PathConfinement
import ConcurrentWebServer.ServedFiles
set_option autoImplicit false

/-! Which strings outgrow the arrays of `MAXBUF` bytes they are written to. -/

namespace ConcurrentWebServer.Requests
open Execution CStrings PosixFiles

section Lines

theorem cut_length_le (room : Nat) (s : Stream' Received) : (cut room s).bytes.length ≤ room := by
  fun_induction cut room s with
  | case1 s => exact Nat.le_refl 0
  | case2 room s c hs hc => exact Nat.succ_le_succ (Nat.zero_le room)
  | case3 room s c hs hc ih => exact Nat.succ_le_succ ih
  | case4 room s hs => exact Nat.zero_le _
  | case5 room s hs => exact Nat.zero_le _

theorem fill_length_le (s : Stream' Received) (old : CharArray MAXBUF) :
    ((headLine s).fill old.1).length ≤ MAXBUF := by
  have hle : (headLine s).bytes.length ≤ MAXBUF-1 := cut_length_le _ s
  have hold : old.1.length = MAXBUF := old.2
  have hpos : 0 < MAXBUF := by decide
  rw [Piece.fill]
  split_ifs with hb
  · have hone := (bare_iff.mp hb).2
    rw [List.length_append,List.length_drop]
    omega
  · simp only [strcpy,List.length_append,List.length_cons,List.length_drop]
    omega

theorem isGet_length {method : List UInt8} (h : isGet method = true) : method.length = 3 := by
  have hmap := congrArg List.length (eq_of_beq h)
  simpa [ascii] using hmap

theorem uri_length_le {line method rest uri rest' : List UInt8} (hl : line.length ≤ MAXBUF)
    (hm : scanToken line = some (method,rest)) (hget : isGet method = true)
    (hu : scanToken rest = some (uri,rest')) : uri ≠ [] ∧ uri.length + 3 ≤ MAXBUF := by
  obtain ⟨_,_,b,_,rfl⟩ := scanToken_some hm
  obtain ⟨hne,_,b',_,rfl⟩ := scanToken_some hu
  have hthree := isGet_length hget
  simp only [List.length_append] at hl
  exact ⟨hne,by omega⟩

end Lines

section Uris

/-- The filename and the arguments fit with their NULs, and `uri` is not read
in front of its first byte. -/
def UriFits (below : UInt8) (uri : List UInt8) : Prop :=
  (requestParseUri below uri).2.1.length + 1 ≤ MAXBUF ∧
    (requestParseUri below uri).2.2.length + 1 ≤ MAXBUF ∧ 0 < uri.length

def namesDirectory (uri : List UInt8) : Bool :=
  !strstr uri (ascii "cgi") && uri.getLast? == some 47

theorem uriPath_directory {uri : List UInt8} (h : namesDirectory uri = true) :
    uriPath uri = uri := by
  simp only [namesDirectory,Bool.and_eq_true,Bool.not_eq_true'] at h
  simp [uriPath,h.1]

theorem getLast_below {below : UInt8} {uri : List UInt8} (h : uri ≠ []) :
    ((below :: uri).getLast (by simp) == 47) = (uri.getLast? == some 47) := by
  rw [List.getLast_cons h,List.getLast?_eq_some_getLast h]
  rfl

def nameLength (uri : List UInt8) : Nat :=
  1 + (uriPath uri).length + if namesDirectory uri then 10 else 0

theorem filename_length (below : UInt8) {uri : List UInt8} (h : uri ≠ []) :
    (requestParseUri below uri).2.1.length = nameLength uri := by
  rw [nameLength]
  have hdot : (ascii ".").length = 1 := rfl
  have hindex : (ascii "index.html").length = 10 := rfl
  cases hcgi : strstr uri (ascii "cgi") with
  | true => simp [requestParseUri,uriPath,namesDirectory,hcgi,hdot,add_comm]
  | false =>
    simp only [requestParseUri,uriPath,namesDirectory,hcgi,getLast_below h,Bool.not_false,if_true,
      Bool.true_and,Bool.false_eq_true,if_false]
    cases uri.getLast? == some 47 with
    | true => simp only [if_true,List.length_append,hdot,hindex]
    | false => simp only [Bool.false_eq_true,if_false,List.length_append,hdot,add_zero]

theorem uriPath_length_le (uri : List UInt8) : (uriPath uri).length ≤ uri.length := by
  rw [uriPath]
  split_ifs
  · exact (List.takeWhile_sublist _).length_le
  · exact Nat.le_refl _

theorem cgiargs_length_le (below : UInt8) (uri : List UInt8) :
    (requestParseUri below uri).2.2.length ≤ uri.length := by
  cases hcgi : strstr uri (ascii "cgi") with
  | false => simp [requestParseUri,hcgi]
  | true =>
    have hsub := (List.drop_sublist 1 _).trans (List.dropWhile_sublist (l := uri) (· != 63))
    simpa [requestParseUri,hcgi] using hsub.length_le

/-- Every URI that comes on a GET line fits, but for the longest names of
directories. -/
theorem uri_fits (s : Stream' Received) (buf : CharArray MAXBUF) (below : UInt8)
    {method rest uri rest' : List UInt8}
    (hm : scanToken (cstr ((headLine s).fill buf.1)) = some (method,rest))
    (hget : isGet method = true) (hu : scanToken rest = some (uri,rest')) :
    UriFits below uri ↔ (namesDirectory uri = true → uri.length ≤ 8180) := by
  have hline : (cstr ((headLine s).fill buf.1)).length ≤ MAXBUF :=
    ((List.takeWhile_sublist _).length_le).trans (fill_length_le s buf)
  obtain ⟨hne,hlen⟩ := uri_length_le hline hm hget hu
  have hpath := uriPath_length_le uri
  have hargs := cgiargs_length_le below uri
  have hpos := List.length_pos_iff.mpr hne
  have hmax : MAXBUF = 8192 := rfl
  rw [UriFits,filename_length below hne,nameLength]
  cases hd : namesDirectory uri with
  | false => exact iff_of_true ⟨by simp; omega,by omega,hpos⟩ (by simp)
  | true =>
    rw [uriPath_directory hd]
    simp only [if_true,forall_const]
    constructor
    · rintro ⟨h,_,_⟩
      omega
    · intro h
      exact ⟨by omega,by omega,hpos⟩

theorem uri_fits_root : isGet (ascii "GET") = true ∧ UriFits 0 (ascii "/") := by
  have hm : scanToken (cstr ((headLine (fromClient (ascii "GET / HTTP/1.0\r\n\r\n"))).fill
      zeroed.1)) = some (ascii "GET",ascii " / HTTP/1.0\r\n") := rfl
  have hu : scanToken (ascii " / HTTP/1.0\r\n") = some (ascii "/",ascii " HTTP/1.0\r\n") := rfl
  exact ⟨rfl,(uri_fits _ zeroed 0 hm rfl hu).mpr (by decide)⟩

theorem headLine_full_line {bytes : List UInt8} (hn : 10 ∉ bytes) (hz : 0 ∉ bytes)
    (hl : bytes.length = MAXBUF-1) (old : List UInt8) :
    (headLine (fromClient bytes)).stop ≠ .error ∧
      cstr ((headLine (fromClient bytes)).fill old) = bytes := by
  have htake : takeLine (MAXBUF-1) bytes = bytes := takeLine_of_not_mem hn (by omega)
  have hbare : ¬ (MAXBUF-1 = 1) := by decide
  rw [headLine,cut_fromClient,htake]
  refine ⟨by simp [hn,hl],?_⟩
  simp only [Piece.fill,Piece.bare,hl,beq_iff_eq,hbare,Bool.and_eq_true,and_false,if_false,
    cstr_strcpy]
  exact cstr_of_not_mem hz

def slashes : List UInt8 := List.replicate 8187 47

theorem slashes_mem {c : UInt8} (h : c ∈ slashes) : c = 47 := List.eq_of_mem_replicate h

theorem slashes_length : slashes.length = 8187 := List.length_replicate

theorem slashes_ne_nil : slashes ≠ [] := by
  intro h
  have hlen := slashes_length
  rw [h] at hlen
  cases hlen

theorem slashes_directory : namesDirectory slashes = true := by
  have hcgi : strstr slashes (ascii "cgi") = false := by
    by_contra h
    have hc := slashes_mem (strstr_mem (by simpa using h) (show 99 ∈ ascii "cgi" by decide))
    cases hc
  rw [namesDirectory,hcgi,slashes,List.getLast?_replicate,if_neg (by decide)]
  rfl

def slashesLine : List UInt8 := ascii "GET " ++ slashes

theorem slashesLine_not_mem {c : UInt8} (hget : c ∉ ascii "GET ") (hc : c ≠ 47) :
    c ∉ slashesLine := by
  intro h
  rcases List.mem_append.mp h with h | h
  · exact hget h
  · exact hc (slashes_mem h)

theorem slashesLine_scan : scanToken slashesLine = some (ascii "GET",32 :: slashes) ∧
    scanToken (32 :: slashes) = some (slashes,[]) := by
  have hall : (ascii "GET").all (fun c => !isspace c) = true := rfl
  have hmethod : scanToken ([] ++ ascii "GET" ++ 32 :: slashes) =
      some (ascii "GET",32 :: slashes) :=
    scanToken_append (by simp) (by decide) (by simpa using hall) (by simp [isspace])
  have huri : scanToken ([32] ++ slashes ++ []) = some (slashes,[]) :=
    scanToken_append (by simp [isspace]) slashes_ne_nil
      (fun c hc => by rw [slashes_mem hc]; rfl) (by simp)
  rw [List.append_nil] at huri
  exact ⟨hmethod,huri⟩

theorem slashes_overflow : ∃ s buf method rest uri rest',
    scanToken (cstr ((headLine s).fill (buf : CharArray MAXBUF).1)) = some (method,rest) ∧
    isGet method = true ∧ scanToken rest = some (uri,rest') ∧ ¬ UriFits 0 uri := by
  obtain ⟨hmethod,huri⟩ := slashesLine_scan
  have hline : slashesLine.length = MAXBUF-1 := by
    rw [slashesLine,List.length_append,slashes_length]
    rfl
  have hfill := (headLine_full_line (slashesLine_not_mem (c := 10) (by decide) (by decide))
    (slashesLine_not_mem (by decide) (by decide)) hline zeroed.1).2
  refine ⟨fromClient slashesLine,zeroed,_,_,slashes,[],by rw [hfill]; exact hmethod,rfl,huri,?_⟩
  rintro ⟨hfit,_,_⟩
  rw [filename_length 0 slashes_ne_nil,nameLength,uriPath_directory slashes_directory,
    slashes_directory,slashes_length] at hfit
  exact absurd hfit (by decide)

end Uris

section Pages

theorem errorBody_length (cause errnum shortmsg longmsg : List UInt8) :
    (errorBody cause errnum shortmsg longmsg).length =
      cause.length + (errnum.length + shortmsg.length + longmsg.length + 128) := by
  have htitle : (ascii
    "<!doctype html>\r\n<head>\r\n  <title>OSTEP WebServer Error</title>\r\n</head>\r\n").length
      = 74 := rfl
  have hbody : (ascii "<body>\r\n  <h2>").length = 14 := rfl
  have hcolon : (ascii ": ").length = 2 := rfl
  have hpar : (ascii "</h2>\r\n  <p>").length = 12 := rfl
  have hend : (ascii "</p>\r\n</body>\r\n</html>\r\n").length = 24 := rfl
  simp only [errorBody,List.length_append,htitle,hbody,hcolon,hpar,hend]
  omega

def ErrorPage.Fits (p : ErrorPage) : Prop := p.body.length + 1 ≤ MAXBUF

variable {cause : List UInt8}

theorem notImplemented_length (cause : List UInt8) :
    (notImplemented cause).body.length = cause.length + 183 := by
  have htexts : (ascii "501").length + (ascii "Not Implemented").length +
    (ascii "server does not implement this method").length = 55 := rfl
  simp only [ErrorPage.body,errorBody_length,notImplemented]
  omega

theorem notImplemented_fits : (notImplemented cause).Fits ↔ cause.length ≤ 8008 := by
  have hmax : MAXBUF = 8192 := rfl
  rw [ErrorPage.Fits,notImplemented_length]
  omega

theorem notFound_fits : (notFound cause).Fits ↔ cause.length ≤ 8020 := by
  have hmax : MAXBUF = 8192 := rfl
  have htexts : (ascii "404").length + (ascii "Not found").length +
    (ascii "server could not find this file").length = 43 := rfl
  simp only [ErrorPage.Fits,ErrorPage.body,errorBody_length,notFound]
  omega

theorem forbidden_fits (isStatic : Bool) (h : cause.length < PATH_MAX) :
    ((if isStatic then unreadable else unrunnable) cause).Fits := by
  have hmax : MAXBUF = 8192 := rfl
  have hpath : PATH_MAX = 4096 := rfl
  have hread : (ascii "403").length + (ascii "Forbidden").length +
    (ascii "server could not read this file").length = 43 := rfl
  have hrun : (ascii "403").length + (ascii "Forbidden").length +
    (ascii "server could not run this CGI program").length = 49 := rfl
  cases isStatic with
  | true =>
    simp only [ErrorPage.Fits,ErrorPage.body,errorBody_length,unreadable,if_true]
    omega
  | false =>
    simp only [ErrorPage.Fits,ErrorPage.body,errorBody_length,unrunnable,Bool.false_eq_true,
      if_false]
    omega

variable {who : Identity} {run : List UInt8 → List UInt8 → Option (List UInt8)} {t : Tree}

theorem verdict_fits (fd : Nat) (resolved : Bool × List UInt8 × List UInt8) :
    (∀ p, verdict (seenBy who run t) fd resolved = .error p →
      p.cause.length + 1 ≤ MAXBUF → p.Fits) ↔
    resolved.2.1.length ≤ 8020 ∨ MAXBUF ≤ resolved.2.1.length := by
  have hmax : MAXBUF = 8192 := rfl
  have hpath : PATH_MAX = 4096 := rfl
  cases hs : (seenBy who run t).stat resolved.2.1 with
  | none =>
    simp only [verdict,hs,Except.error.injEq,forall_eq',notFound_fits]
    change (resolved.2.1.length + 1 ≤ MAXBUF → _) ↔ _
    omega
  | some sbuf =>
    obtain ⟨node,hnode,_⟩ := Option.map_eq_some_iff.mp hs
    have hlen := Tree.length_lt hnode
    refine iff_of_true (fun p hp _ => ?_) (.inl (by omega))
    simp only [verdict,hs] at hp
    split_ifs at hp with _ hstatic
    · rw [← Except.error.inj hp]
      simpa [hstatic] using forbidden_fits true hlen
    · rw [← Except.error.inj hp]
      simpa [hstatic] using forbidden_fits false hlen

theorem filename_empty (below : UInt8) : (requestParseUri below []).2.1.length ≤ 11 := by
  cases hb : below == 47 <;> simp [requestParseUri,strstr,ascii,hb]

theorem filename_range (below : UInt8) (uri : List UInt8) :
    ((requestParseUri below uri).2.1.length ≤ 8020 ∨
      MAXBUF ≤ (requestParseUri below uri).2.1.length) ↔
    (nameLength uri ≤ 8020 ∨ MAXBUF ≤ nameLength uri) := by
  by_cases hne : uri = []
  · subst hne
    exact iff_of_true (.inl ((filename_empty below).trans (by decide))) (.inl (by decide))
  · rw [filename_length below hne]

/-- Whatever `request_error` is called with, its page fits. The name in a page
after a GET is taken to fit in `filename`. -/
def PagesFit (fs : FileSystem) (f : Frame) (fd : Nat) (conn : Conn) : Prop :=
  ∀ p conn', Decides fs f fd conn (.error p) conn' →
    (isGet (f.method' (headLine conn.input)) = true → p.cause.length + 1 ≤ MAXBUF) → p.Fits

/-- Which methods and which names leave room for the text around them. -/
theorem pages_fit (who : Identity) (run : List UInt8 → List UInt8 → Option (List UInt8)) (t : Tree)
    (f : Frame) (fd : Nat) (conn : Conn) :
    PagesFit (seenBy who run t) f fd conn ↔ (headLine conn.input).stop = .error ∨
      (isGet (f.method' (headLine conn.input)) = false →
        (f.method' (headLine conn.input)).length ≤ 8008) ∧
      (isGet (f.method' (headLine conn.input)) = true →
        (∃ s, HeadEnds f.headers.1 (headLine conn.input).rest s) →
        nameLength (f.uri' (headLine conn.input)) ≤ 8020 ∨
          MAXBUF ≤ nameLength (f.uri' (headLine conn.input))) := by
  by_cases hs : (headLine conn.input).stop = .error
  · exact iff_of_true (fun p conn' h => absurd hs (decides_ne_error h)) (.inl hs)
  · rw [or_iff_right hs]
    cases hm : isGet (f.method' (headLine conn.input)) with
    | false =>
      simp only [PagesFit,decides_other hs hm,hm,Except.error.injEq,Bool.false_eq_true,
        false_implies,and_true,forall_const]
      constructor
      · intro h
        exact notImplemented_fits.mp (h _ _ ⟨rfl,rfl⟩)
      · rintro h p conn' ⟨rfl,_⟩
        exact notImplemented_fits.mpr h
    | true =>
      simp only [PagesFit,decides_get hs hm,hm,true_implies,Bool.true_eq_false,false_implies,
        true_and,← filename_range f.below]
      constructor
      · rintro h ⟨s,hends⟩
        exact (verdict_fits fd _).mp fun p hp => h p _ ⟨s,hends,hp.symm,rfl⟩
      · rintro h p conn' ⟨s,hends,hp,_⟩
        exact (verdict_fits fd _).mpr (h ⟨s,hends⟩) p hp.symm

def longMethod : List UInt8 := List.replicate 8191 65

theorem longMethod_mem {c : UInt8} (h : c ∈ longMethod) : c = 65 := List.eq_of_mem_replicate h

theorem longMethod_length : longMethod.length = 8191 := List.length_replicate

theorem longMethod_line (old : List UInt8) :
    (headLine (fromClient longMethod)).stop ≠ .error ∧
      cstr ((headLine (fromClient longMethod)).fill old) = longMethod := by
  have hnot : ∀ c : UInt8, c ≠ 65 → c ∉ longMethod := fun c hc h => hc (longMethod_mem h)
  exact headLine_full_line (hnot 10 (by decide)) (hnot 0 (by decide)) longMethod_length old

theorem longMethod_method (f : Frame) :
    f.method' (headLine (client longMethod).input) = longMethod := by
  have hz : 0 ∉ longMethod := fun h => absurd (longMethod_mem h) (by decide)
  have hne : longMethod ≠ [] := List.ne_nil_of_length_pos (by rw [longMethod_length]; decide)
  have hscan : scanToken ([] ++ longMethod ++ []) = some (longMethod,[]) :=
    scanToken_append (by simp) hne (fun c hc => by rw [longMethod_mem hc]; rfl) (by simp)
  rw [List.append_nil,List.nil_append] at hscan
  change cstr (sscanf3 (cstr ((headLine (fromClient longMethod)).fill f.buf.1)) _ _ _).1 = _
  rw [(longMethod_line f.buf.1).2,sscanf3,hscan]
  exact (cstr_strcpy _ _).trans (cstr_of_not_mem hz)

theorem longMethod_overflow :
    ¬ PagesFit (seenBy visitor (fun _ _ => none) Tree.empty) .zeros 4 (client longMethod) ∧
    (notImplemented longMethod).body.length + 1 = MAXBUF + 183 := by
  have hmethod := longMethod_method .zeros
  have hlen := longMethod_length
  have hget : isGet longMethod = false := by
    by_contra h
    have hthree := isGet_length (by simpa using h)
    omega
  have herr : (headLine (client longMethod).input).stop ≠ .error := (longMethod_line []).1
  have hother : Decides (seenBy visitor (fun _ _ => none) Tree.empty) .zeros 4 (client longMethod)
      (.error (notImplemented longMethod)) _ :=
    (decides_other herr (by rw [hmethod]; exact hget)).mpr ⟨by rw [hmethod],rfl⟩
  constructor
  · intro h
    have hfits := h _ _ hother (by rw [hmethod,hget]; exact fun h => by cases h)
    rw [notImplemented_fits,hlen] at hfits
    exact absurd hfits (by decide)
  · rw [notImplemented_length,hlen]
    rfl

end Pages

end ConcurrentWebServer.Requests
