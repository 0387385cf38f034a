import ConcurrentWebServer.RequestModel
set_option autoImplicit false

/-! What the query string of a URI does to the file it leads to. -/

namespace ConcurrentWebServer.Requests
open Execution CStrings

/-- A query behind the path changes neither the file nor the kind of the reply,
and is what a program is given. -/
def QueryNeutral (below : UInt8) (path query : List UInt8) : Prop :=
  let alone := requestParseUri below path
  let asked := requestParseUri below (path ++ 63 :: query)
  asked.2.1 = alone.2.1 ∧ asked.1 = alone.1 ∧ (asked.1 = false → asked.2.2 = query) ∧
    (alone.1 = false → alone.2.2 = [])

variable {below : UInt8} {uri path query : List UInt8}

theorem requestParseUri_program (h : strstr uri (ascii "cgi") = true) :
    requestParseUri below uri =
      (false,ascii "." ++ uri.takeWhile (· != 63),(uri.dropWhile (· != 63)).drop 1) := by
  simp [requestParseUri,h]

theorem requestParseUri_file (below : UInt8) (h : strstr uri (ascii "cgi") = false) :
    ∃ index, (index = [] ∨ index = ascii "index.html") ∧
      requestParseUri below uri = (true,ascii "." ++ uri ++ index,[]) := by
  simp only [requestParseUri,h,Bool.not_false,if_true]
  split
  · exact ⟨ascii "index.html",.inr rfl,rfl⟩
  · exact ⟨[],.inl rfl,by rw [List.append_nil]⟩

theorem strstr_query :
    strstr (path ++ 63 :: query) (ascii "cgi") =
      (strstr path (ascii "cgi") || strstr query (ascii "cgi")) := by
  have hmark : (63 : UInt8) ∉ (ascii "cgi").tail := by decide
  have hfirst : ¬ ascii "cgi" <+: 63 :: query := by
    intro h
    have hc := (List.cons_prefix_cons.mp h).1
    revert hc
    decide
  rw [Bool.eq_iff_iff,strstr_append_cons hmark,Bool.or_eq_true]
  simp only [hfirst,false_or]

theorem takeWhile_mark (h : 63 ∉ path) (r : List UInt8) :
    (path ++ r).takeWhile (· != 63) = path ++ r.takeWhile (· != 63) ∧
      (path ++ r).dropWhile (· != 63) = r.dropWhile (· != 63) := by
  have hpath : ∀ c ∈ path, (c != 63) = true := by
    intro c hc
    simpa [bne_iff_ne] using ne_of_mem_of_not_mem hc h
  exact ⟨List.takeWhile_append_of_pos hpath,List.dropWhile_append_of_pos hpath⟩

theorem program_neutral (h : 63 ∉ path) (hcgi : strstr path (ascii "cgi") = true) :
    QueryNeutral below path query := by
  have hask : strstr (path ++ 63 :: query) (ascii "cgi") = true := by
    rw [strstr_query,hcgi]
    rfl
  have hcut := takeWhile_mark h (63 :: query)
  have hwhole := takeWhile_mark h []
  rw [List.append_nil] at hwhole
  simp [QueryNeutral,requestParseUri_program hcgi,requestParseUri_program hask,hcut,hwhole]

theorem file_not_neutral (hcgi : strstr path (ascii "cgi") = false) :
    ¬ QueryNeutral below path query := by
  intro h
  obtain ⟨hname,hkind,_⟩ := h
  obtain ⟨index,hindex,halone⟩ := requestParseUri_file below hcgi
  rw [halone] at hname hkind
  have hask : strstr (path ++ 63 :: query) (ascii "cgi") = false := by
    cases hs : strstr (path ++ 63 :: query) (ascii "cgi") with
    | false => rfl
    | true => simp [requestParseUri_program hs] at hkind
  obtain ⟨index',_,hasked⟩ := requestParseUri_file below hask
  rw [hasked] at hname
  simp only [List.append_assoc,List.append_cancel_left_eq,List.cons_append] at hname
  cases hindex with
  | inl he => simp [he] at hname
  | inr he =>
    rw [he] at hname
    have hc := (List.cons.inj hname).1
    revert hc
    decide

/-- Queries are neutral behind the paths of programs, and no others. -/
theorem query_neutral (below : UInt8) (path query : List UInt8) (h : 63 ∉ path) :
    QueryNeutral below path query ↔ strstr path (ascii "cgi") = true := by
  constructor
  · intro hq
    cases hcgi : strstr path (ascii "cgi") with
    | true => rfl
    | false => exact absurd hq (file_not_neutral hcgi)
  · exact program_neutral h

theorem query_neutral_program : QueryNeutral 0 (ascii "/spin.cgi") (ascii "1?2") :=
  (query_neutral 0 _ _ (by decide)).mpr rfl

/-- `/a?x` is looked for under its whole name, and `/a?cgi` is run. -/
theorem file_query_kept :
    ¬ QueryNeutral 0 (ascii "/a") (ascii "x") ∧ ¬ QueryNeutral 0 (ascii "/a") (ascii "cgi") ∧
    requestParseUri 0 (ascii "/a?x") = (true,ascii "./a?x",[]) ∧
    requestParseUri 0 (ascii "/a?cgi") = (false,ascii "./a",ascii "cgi") :=
  ⟨file_not_neutral rfl,file_not_neutral rfl,rfl,rfl⟩

end ConcurrentWebServer.Requests
