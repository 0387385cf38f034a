import ConcurrentWebServer.LoadClientModel
import ConcurrentWebServer.PythonText
import ConcurrentWebServer.SequentialHandler
set_option autoImplicit false

/-! `http_get` of load_client.py: what it sends is a request that the server
reads as it was meant, and what it reads is the reply, however it is cut up. -/

namespace ConcurrentWebServer.LoadClient
open Execution CStrings PythonText Requests

section Model

def requestText (uri host : String) : String :=
  "GET " ++ uri ++ " HTTP/1.0\r\nHost: " ++ host ++ "\r\nConnection: close\r\n\r\n"

/-- The loop over `sock.recv(65536)`, which returns a part of what has arrived
or nothing once there is no more, or raises. -/
def recvAll : Nat → List UInt8 → Stream' (Option (List UInt8)) → Exec (Option (List UInt8))
  | 0,_,_ => .unfinished
  | fuel+1,data,recv =>
      match recv.head with
      | none => .done none
      | some [] => .done (some data)
      | some chunk => recvAll fuel (data ++ chunk) recv.tail

def lineStatus (line : List UInt8) : Int :=
  match split (decode line) with
  | _ :: part :: _ => (parseInt part).getD 0
  | _ => 0

def statusOf (data : List UInt8) : Int := if data.isEmpty then 0 else lineStatus (firstLine data)

/-- `http_get` once it is connected and has sent its request; `none` when it
raises. The clock reads `t0` before and `t1` after. -/
def httpGet {F : Type} [Sub F] [Mul F] [OfScientific F] (fuel : Nat) (t0 t1 : F)
    (recv : Stream' (Option (List UInt8))) : Exec (Option (F × Int × Nat)) := do
  let data ← recvAll fuel [] recv
  pure (data.map fun data => ((t1-t0)*1000.0,statusOf data,data.length))

end Model

section Receiving

def incoming (chunks : List (List UInt8)) : Stream' (Option (List UInt8)) :=
  chunks.map some ++ₛ Stream'.const (some [])

theorem recvAll_incoming {chunks : List (List UInt8)} (h : [] ∉ chunks) {fuel : Nat}
    (hf : chunks.length < fuel) (data : List UInt8) :
    recvAll fuel data (incoming chunks) = .done (some (data ++ chunks.flatten)) := by
  induction chunks generalizing fuel data with
  | nil =>
    obtain ⟨n,rfl⟩ : ∃ n, fuel = n+1 := ⟨fuel-1,by simp at hf; omega⟩
    simp [recvAll,incoming]
  | cons chunk chunks ih =>
    obtain ⟨n,rfl⟩ : ∃ n, fuel = n+1 := ⟨fuel-1,by simp at hf; omega⟩
    rw [List.mem_cons,not_or] at h
    have hhead : (incoming (chunk :: chunks)).head = some chunk := rfl
    have htail : (incoming (chunk :: chunks)).tail = incoming chunks := rfl
    obtain ⟨c,r,hc⟩ := List.exists_cons_of_ne_nil (Ne.symm h.1)
    subst hc
    rw [recvAll,hhead,htail]
    change recvAll n (data ++ (c :: r)) (incoming chunks) = _
    simp only [List.length_cons] at hf
    rw [ih h.2 (by omega)]
    simp

theorem httpGet_incoming {F : Type} [Sub F] [Mul F] [OfScientific F] (t0 t1 : F)
    {chunks : List (List UInt8)} (h : [] ∉ chunks) {fuel : Nat} (hf : chunks.length < fuel) :
    httpGet fuel t0 t1 (incoming chunks) =
      .done (some ((t1-t0)*1000.0,statusOf chunks.flatten,chunks.flatten.length)) := by
  simp [httpGet,recvAll_incoming h hf]

theorem statusOf_line {l : List UInt8} (hl : 13 ∉ l) (r : List UInt8) :
    statusOf (l ++ 13 :: 10 :: r) = lineStatus l := by
  simp [statusOf,firstLine_line hl]

end Receiving

section Sending

structure Sendable (uri host : String) : Prop where
  nonempty : encode uri ≠ []
  plain : ∀ c ∈ encode uri, isspace c = false ∧ c ≠ 0
  short : (encode uri).length ≤ MAXBUF-16
  oneLine : 10 ∉ encode host

theorem plain_of_all {l : List UInt8} (h : (l.all fun c => !isspace c && c != 0) = true) :
    ∀ c ∈ l, isspace c = false ∧ c ≠ 0 := by
  intro c hc
  simpa using List.all_eq_true.mp h c hc

theorem blank_head {r : List UInt8} (h : r.head? = some 32) : ∀ c ∈ r.head?, isspace c = true := by
  intro c hc
  rw [h] at hc
  cases hc
  rfl

theorem encode_append (s t : String) : encode (s ++ t) = encode s ++ encode t := by
  simp [encode]

theorem encode_requestText (uri host : String) : encode (requestText uri host) =
    (ascii "GET " ++ encode uri ++ ascii " HTTP/1.0\r") ++ 10 ::
      ((ascii "Host: " ++ encode host ++ [13]) ++ 10 :: (ascii "Connection: close\r" ++ 10 ::
        crlf)) := by
  have h₁ : encode "GET " = ascii "GET " := by decide
  have h₂ : encode " HTTP/1.0\r\nHost: " = ascii " HTTP/1.0\r" ++ 10 :: ascii "Host: " := by decide
  have h₃ : encode "\r\nConnection: close\r\n\r\n" =
      [13] ++ 10 :: (ascii "Connection: close\r" ++ 10 :: crlf) := by decide
  simp [requestText,encode_append,h₁,h₂,h₃]

variable {uri host : String}

theorem Sendable.line (h : Sendable uri host) :
    10 ∉ ascii "GET " ++ encode uri ++ ascii " HTTP/1.0\r" ∧
      (ascii "GET " ++ encode uri ++ ascii " HTTP/1.0\r").length < MAXBUF-1 := by
  constructor
  · simp only [List.mem_append,not_or]
    refine ⟨⟨by decide,fun hm => ?_⟩,by decide⟩
    have hspace := (h.plain 10 hm).1
    revert hspace
    decide
  · have hlen := h.short
    have h₁ : (ascii "GET ").length = 4 := by decide
    have h₂ : (ascii " HTTP/1.0\r").length = 10 := by decide
    simp only [List.length_append,h₁,h₂,MAXBUF] at hlen ⊢
    omega

theorem Sendable.proper (h : Sendable uri host) :
    Proper (encode (requestText uri host)) (ascii "GET") (encode uri) := by
  obtain ⟨hline,hlen⟩ := h.line
  have hspaces : ∀ c ∈ ascii " ", isspace c = true := List.all_eq_true.mp (by decide)
  have hget : ∀ c ∈ ascii "GET", isspace c = false ∧ c ≠ 0 := plain_of_all (by decide)
  refine ⟨⟨ascii " " ++ encode uri ++ ascii " HTTP/1.0\r\n",ascii " HTTP/1.0\r\n",
    ascii "HTTP/1.0",ascii "\r\n",?_,?_,by decide⟩,?_,?_⟩
  · have hall : takeLine (MAXBUF-1) (encode (requestText uri host)) =
        [] ++ ascii "GET" ++ (ascii " " ++ encode uri ++ ascii " HTTP/1.0\r\n") := by
      rw [encode_requestText,takeLine_line hline hlen]
      have h₁ : ascii "GET " = ascii "GET" ++ ascii " " := by decide
      have h₂ : ascii " HTTP/1.0\r\n" = ascii " HTTP/1.0\r" ++ [10] := by decide
      simp [h₁,h₂]
    have hzero : 0 ∉ takeLine (MAXBUF-1) (encode (requestText uri host)) := by
      rw [hall]
      simp only [List.mem_append,not_or]
      exact ⟨⟨by simp,by decide⟩,⟨by decide,fun hm => (h.plain 0 hm).2 rfl⟩,by decide⟩
    rw [cstr_of_not_mem hzero,hall]
    exact scanToken_append (by simp) (by decide) (fun c hc => (hget c hc).1) (blank_head rfl)
  · exact scanToken_append hspaces h.nonempty (fun c hc => (h.plain c hc).1) (blank_head rfl)
  · rw [encode_requestText,drop_line hline hlen]
    have hhost : 10 ∉ ascii "Host: " ++ encode host ++ [13] := by
      simp only [List.mem_append,not_or]
      exact ⟨⟨by decide,h.oneLine⟩,by decide⟩
    obtain ⟨ps,hps⟩ := pieces_line hhost (ascii "Connection: close\r" ++ 10 :: crlf)
    obtain ⟨qs,hqs⟩ := pieces_line (l := ascii "Connection: close\r") (by decide) crlf
    have hlast : pieces crlf = [crlf] := by
      have htake : takeLine (MAXBUF-1) crlf = crlf := by
        change takeLine (8189+1+1) crlf = crlf
        simp [takeLine,crlf,ascii]
      rw [pieces_cons (by decide),htake,List.drop_length,pieces_nil]
    rw [hps,hqs,hlast]
    simp
  · have hshort := h.short
    have htaken : ((encode uri).takeWhile (· != 63)).length ≤ (encode uri).length :=
      (List.takeWhile_prefix _).length_le
    have hdropped : ((encode uri).dropWhile (· != 63)).length ≤ (encode uri).length :=
      (List.dropWhile_suffix _).length_le
    have h₁ : (ascii ".").length = 1 := by decide
    have h₂ : (ascii "index.html").length = 10 := by decide
    simp only [Fits,requestParseUri,MAXBUF] at hshort ⊢
    split_ifs <;> simp only [List.length_append,List.length_drop,List.length_nil,h₁,h₂] <;> omega

end Sending

end ConcurrentWebServer.LoadClient
