import ConcurrentWebServer.LexicalPath
import ConcurrentWebServer.RequestOutcomes
set_option autoImplicit false

/-! Which URIs lead to a path inside the base directory. -/

namespace ConcurrentWebServer.Requests
open Execution CStrings LexicalPath

def BelowBase (filename : List UInt8) : Prop := Confined 0 (moves 47 46 filename)

instance (filename : List UInt8) : Decidable (BelowBase filename) :=
  inferInstanceAs (Decidable (Confined _ _))

def uriPath (uri : List UInt8) : List UInt8 :=
  if strstr uri (ascii "cgi") then uri.takeWhile (· != 63) else uri

/-- The first component is not ".", which the dot in front turns into "..". In
the others, ".." never outnumbers the names before it, where the first counts
as a name unless it is empty. -/
def UriConfined (uri : List UInt8) : Prop :=
  ∃ c cs, (uriPath uri).splitOn 47 = c :: cs ∧ c ≠ ascii "." ∧
    Balanced (if c = [] then 0 else 1) (cs.map (move 46))

theorem dot_belowBase (path : List UInt8) :
    BelowBase (ascii "." ++ path) ↔
      ∃ c cs, path.splitOn 47 = c :: cs ∧ c ≠ ascii "." ∧
        Balanced (if c = [] then 0 else 1) (cs.map (move 46)) := by
  have h47 : (46 : UInt8) ≠ 47 := by decide
  obtain ⟨c,cs,hsplit,hmoves⟩ := moves_cons 47 46 h47 path
  have hiff : Confined 0 (move 46 (46 :: c) :: cs.map (move 46)) ↔
      c ≠ ascii "." ∧ Balanced (if c = [] then 0 else 1) (cs.map (move 46)) := by
    change _ ↔ c ≠ [46] ∧ _
    by_cases h₁ : c = []
    · subst h₁
      simp [move,← confined_iff_balanced]
    · by_cases h₂ : c = [46]
      · subst h₂
        simp [move]
      · simp [move,h₁,h₂,← confined_iff_balanced]
  change Confined 0 (moves 47 46 (46 :: path)) ↔ _
  rw [hmoves,hiff]
  constructor
  · rintro ⟨hc,hb⟩
    exact ⟨c,cs,hsplit,hc,hb⟩
  · rintro ⟨c',cs',hs',hc,hb⟩
    rw [hsplit] at hs'
    cases hs'
    exact ⟨hc,hb⟩

theorem index_belowBase {path : List UInt8} (h : path.getLast? = some 47) :
    BelowBase (path ++ ascii "index.html") ↔ BelowBase path := by
  obtain ⟨v,rfl⟩ := List.getLast?_eq_some_iff.mp h
  have hi : (47 : UInt8) ∉ ascii "index.html" := by decide
  have hn : (47 : UInt8) ∉ ([] : List UInt8) := by decide
  have hindex := moves_concat 46 v hi
  have hnil := moves_concat 46 v hn
  rw [BelowBase,BelowBase,List.append_assoc,List.singleton_append,hindex,hnil]
  rw [confined_concat (by decide),confined_concat (by decide)]

theorem filename_belowBase (below : UInt8) (uri : List UInt8) :
    BelowBase (requestParseUri below uri).2.1 ↔ UriConfined uri := by
  rw [UriConfined,← dot_belowBase,uriPath]
  cases hcgi : strstr uri (ascii "cgi") with
  | true => simp [requestParseUri,hcgi]
  | false =>
    by_cases hlast : (below :: uri).getLast (by simp) = 47
    · simp only [requestParseUri,hcgi,Bool.not_false,if_true,hlast,beq_self_eq_true]
      cases uri with
      | nil => exact iff_of_true rfl rfl
      | cons c r =>
        apply index_belowBase
        rw [List.getLast_cons (by simp)] at hlast
        simpa [List.getLast?_eq_some_getLast] using hlast
    · simp [requestParseUri,hcgi,hlast]

theorem parses_filename {fs : FileSystem} {f : Frame} {fd : Nat} {conn conn' : Conn}
    {req : Request} (h : Parses fs f fd conn (some req,conn')) :
    req.filename =
      (requestParseUri f.below (f.uri' (headLine conn.input))).2.1.take (MAXBUF-1) := by
  obtain ⟨_,_,hverdict,_⟩ := parses_some h
  obtain ⟨sbuf,_,_,rfl⟩ := verdict_ok hverdict
  rfl

/-- `request_parse_uri` keeps to the base directory for exactly these URIs, and
so does the path of an accepted request. -/
theorem uri_confined (below : UInt8) (uri : List UInt8) :
    (BelowBase (requestParseUri below uri).2.1 ↔ UriConfined uri) ∧
    ∀ fs f fd conn req conn', f.uri' (headLine conn.input) = uri →
      Parses fs f fd conn (some req,conn') → (requestParseUri f.below uri).2.1.length < MAXBUF →
      (BelowBase req.filename ↔ UriConfined uri) := by
  refine ⟨filename_belowBase below uri,fun fs f fd conn req conn' huri h hfit => ?_⟩
  rw [parses_filename h,huri,List.take_of_length_le (by omega)]
  exact filename_belowBase _ _

def outsideFile : FileSystem :=
  ⟨fun p => if p = ascii "./../x" then some ⟨0o100644,5⟩ else none,fun _ => none,fun _ _ => none⟩

theorem outsideFile_parses : ∃ conn', Parses outsideFile .zeros 4
    (client (ascii "GET /../x HTTP/1.0\r\n\r\n"))
    (some ⟨4,ascii "./../x",[],true,5⟩,conn') := ⟨_,0,rfl⟩

theorem uri_confined_outside : ¬ UriConfined (ascii "/../x") := by
  obtain ⟨conn',h⟩ := outsideFile_parses
  have hiff := (uri_confined 0 (ascii "/../x")).2 _ _ _ _ _ _ rfl h (by decide)
  have hno : ¬ BelowBase (ascii "./../x") := by decide
  exact fun hu => hno (hiff.mpr hu)

/-- A request for a file above the base directory is accepted. -/
theorem outside_accepted : ∃ req conn', Parses outsideFile .zeros 4
    (client (ascii "GET /../x HTTP/1.0\r\n\r\n")) (some req,conn') ∧ ¬ BelowBase req.filename := by
  obtain ⟨conn',h⟩ := outsideFile_parses
  exact ⟨_,conn',h,by decide⟩

end ConcurrentWebServer.Requests
