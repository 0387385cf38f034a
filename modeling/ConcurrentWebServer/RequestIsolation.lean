import ConcurrentWebServer.HeaderDrain
import ConcurrentWebServer.RequestOutcomes
set_option autoImplicit false

/-! What of a request's answer comes from the request, and what from the
arrays an earlier call has left on the stack. -/

namespace ConcurrentWebServer.Requests
open Execution CStrings

section Scanning

variable {s a b c t r : List UInt8}

theorem sscanf3_none (h : scanToken s = none) : sscanf3 s a b c = (a,b,c) := by
  simp [sscanf3,h]

theorem sscanf3_method (h : scanToken s = some (t,r)) :
    cstr (sscanf3 s a b c).1 = cstr t := by
  cases h₂ : scanToken r with
  | none => simp [sscanf3,h,h₂]
  | some p => cases h₃ : scanToken p.2 <;> simp [sscanf3,h,h₂,h₃]

theorem sscanf3_uri_stale (h : scanToken s = some (t,r)) (h₂ : scanToken r = none) :
    (sscanf3 s a b c).2.1 = b := by
  simp [sscanf3,h,h₂]

theorem sscanf3_uri (h : scanToken s = some (t,r)) {u v : List UInt8}
    (h₂ : scanToken r = some (u,v)) : cstr (sscanf3 s a b c).2.1 = cstr u := by
  cases h₃ : scanToken v <;> simp [sscanf3,h,h₂,h₃]

end Scanning

section Pages

theorem cause_eq_of_bytes {c c' e s l : List UInt8} (hl : c.length = c'.length)
    (h : (ErrorPage.mk c e s l).bytes = (ErrorPage.mk c' e s l).bytes) : c = c' := by
  have hbody : (ErrorPage.mk c e s l).body.length = (ErrorPage.mk c' e s l).body.length := by
    simp [ErrorPage.body,errorBody,hl]
  simp only [ErrorPage.bytes,ErrorPage.chunks,hbody,List.flatten_cons,List.flatten_nil,
    List.append_nil,List.append_cancel_left_eq] at h
  simpa [ErrorPage.body,errorBody] using h

end Pages

def Frame.outside (f : Frame) : CharArray MAXBUF × UInt8 := (f.headers,f.below)

def Isolated (fs : FileSystem) (fd : Nat) (outside : CharArray MAXBUF × UInt8)
    (bytes : List UInt8) : Prop :=
  ∀ f g : Frame, f.outside = outside → g.outside = outside →
    ∀ r, Parses fs f fd (client bytes) r →
      ∃ r', Parses fs g fd (client bytes) r' ∧ r'.1 = r.1 ∧ r'.2.sent = r.2.sent

/-- The first line is more than a byte cut off by the end of the stream, and
has the tokens that are going to be looked at: a method, and for a GET whose
head comes to an end a URI. -/
def SelfContained (headers bytes : List UInt8) : Prop :=
  (∀ c, c ≠ 10 → bytes ≠ [c]) ∧
  ∃ method rest, scanToken (cstr (takeLine (MAXBUF-1) bytes)) = some (method,rest) ∧
    (isGet method = false ∨ scanToken rest ≠ none ∨
      ¬ Drained headers (pieces (bytes.drop (takeLine (MAXBUF-1) bytes).length)))

section Lines

variable {fs : FileSystem} {fd : Nat} {bytes : List UInt8} {f g : Frame}

theorem client_line_bytes : (headLine (client bytes).input).bytes = takeLine (MAXBUF-1) bytes := by
  rw [client,Conn.fresh,headLine_fromClient]

theorem client_line_ok : (headLine (client bytes).input).stop ≠ .error :=
  headLine_fromClient_ne_error bytes

theorem client_line_bare (h : ∀ c, c ≠ 10 → bytes ≠ [c]) :
    (headLine (client bytes).input).bare = false := by
  by_cases hb : bytes = []
  · subst hb
    change (headLine (fromClient [])).bare = false
    simp [headLine_fromClient,Piece.bare]
  · rw [← Bool.not_eq_true,bare_iff]
    rintro ⟨hs,hl⟩
    exact headLine_short bytes h hb ⟨hs,hl.le⟩

theorem scan_line (h : ∀ c, c ≠ 10 → bytes ≠ [c]) :
    f.scan (headLine (client bytes).input) =
      sscanf3 (cstr (takeLine (MAXBUF-1) bytes)) f.method.1 f.uri.1 f.version.1 := by
  rw [Frame.scan,Piece.fill,client_line_bare h,client_line_bytes]
  simp

theorem method_line (h : ∀ c, c ≠ 10 → bytes ≠ [c]) {method rest : List UInt8}
    (hm : scanToken (cstr (takeLine (MAXBUF-1) bytes)) = some (method,rest)) :
    f.method' (headLine (client bytes).input) = method := by
  rw [Frame.method',scan_line h,sscanf3_method hm]
  exact cstr_of_not_mem (scanToken_not_mem (not_mem_cstr _) hm)

theorem uri_line (h : ∀ c, c ≠ 10 → bytes ≠ [c]) {method rest uri rest' : List UInt8}
    (hm : scanToken (cstr (takeLine (MAXBUF-1) bytes)) = some (method,rest))
    (hu : scanToken rest = some (uri,rest')) :
    f.uri' (headLine (client bytes).input) = cstr uri := by
  rw [Frame.uri',scan_line h,sscanf3_uri hm hu]

theorem client_head_ends {buf : List UInt8} :
    (∃ r, HeadEnds buf (headLine (client bytes).input).rest r) ↔
      Drained buf (pieces (bytes.drop (takeLine (MAXBUF-1) bytes).length)) := by
  rw [← headEnds_fromClient,client,Conn.fresh,headLine_fromClient]

theorem isolated_of_selfContained {outside : CharArray MAXBUF × UInt8}
    (h : SelfContained outside.1.1 bytes) : Isolated fs fd outside bytes := by
  obtain ⟨hb,method,rest,hm,hcase⟩ := h
  intro f g hf hg r hr
  cases hf
  obtain ⟨hheaders,hbelow⟩ := Prod.mk.inj hg
  have hmf := method_line (f := f) hb hm
  have hmg := method_line (f := g) hb hm
  refine ⟨r,?_,rfl,rfl⟩
  cases hget : isGet method with
  | false =>
    rw [parses_other client_line_ok (by rw [hmf,hget]),hmf] at hr
    rw [parses_other client_line_ok (by rw [hmg,hget]),hmg]
    exact hr
  | true =>
    rw [parses_get client_line_ok (by rw [hmf,hget])] at hr
    rw [parses_get client_line_ok (by rw [hmg,hget]),hheaders,hbelow]
    cases hu : scanToken rest with
    | some p =>
      rw [uri_line hb hm hu] at hr ⊢
      exact hr
    | none =>
      obtain ⟨s,hs,_⟩ := hr
      have hno := (hcase.resolve_left (by simp [hget])).resolve_left (by simp [hu])
      exact absurd (client_head_ends.mp ⟨s,hs⟩) hno

end Lines

section Leaks

def stale (outside : CharArray MAXBUF × UInt8) (x : UInt8) : Frame :=
  { buf := CharArray.holding MAXBUF [63,x] (by simp [MAXBUF])
    method := CharArray.holding MAXBUF [x] (by simp [MAXBUF])
    uri := CharArray.holding MAXBUF [x] (by simp [MAXBUF])
    version := zeroed
    headers := outside.1
    below := outside.2 }

theorem cstr_zeros {s : List UInt8} (hz : 0 ∉ s) (k : Nat) :
    cstr (s ++ List.replicate k 0) = s := by
  cases k with
  | zero => simpa using cstr_of_not_mem hz
  | succ k => rw [List.replicate_succ,cstr_append_zero,cstr_of_not_mem hz]

section

variable (outside : CharArray MAXBUF × UInt8) {x : UInt8}

theorem stale_method (hx : x ≠ 0) : cstr (stale outside x).method.1 = [x] :=
  cstr_zeros (by simpa using hx.symm) _

theorem stale_uri (hx : x ≠ 0) : cstr (stale outside x).uri.1 = [x] :=
  cstr_zeros (by simpa using hx.symm) _

theorem stale_buf (hx : x ≠ 0) : cstr ((stale outside x).buf.1.drop 1) = [x] :=
  cstr_zeros (by simpa using hx.symm) _

end

variable {fs : FileSystem} {fd : Nat} {bytes : List UInt8} {outside : CharArray MAXBUF × UInt8}

theorem not_isolated_of_method (b : List UInt8) (hb : b.length ≤ 1)
    (hm : ∀ x, x ≠ 0 → isspace x = false →
      (stale outside x).method' (headLine (client bytes).input) = b ++ [x]) :
    ¬ Isolated fs fd outside bytes := by
  intro hiso
  have hA := hm 65 (by decide) (by decide)
  have hB := hm 66 (by decide) (by decide)
  have hget : ∀ y, isGet (b ++ [y]) = false := by
    intro y
    rw [isGet,strcaseeq,beq_eq_false_iff_ne]
    intro h
    have hl := congrArg List.length h
    simp [ascii] at hl
    omega
  obtain ⟨r',hr',_,hsent⟩ := hiso (stale outside 65) (stale outside 66) rfl rfl _
    ((parses_other client_line_ok (by rw [hA,hget])).mpr (conclude_const _ rfl rfl))
  rw [parses_other client_line_ok (by rw [hB,hget]),conclude_const _ rfl rfl] at hr'
  cases hr'
  rw [hA,hB] at hsent
  have hbytes := List.append_cancel_left hsent
  simpa using cause_eq_of_bytes (by simp) hbytes

theorem not_isolated_of_blank (hb : ∀ c, c ≠ 10 → bytes ≠ [c])
    (hm : scanToken (cstr (takeLine (MAXBUF-1) bytes)) = none) :
    ¬ Isolated fs fd outside bytes := by
  apply not_isolated_of_method [] (by simp)
  intro x hx _
  rw [Frame.method',scan_line hb,sscanf3_none hm]
  exact stale_method outside hx

theorem not_isolated_of_single {c : UInt8} (hc : c ≠ 10) : ¬ Isolated fs fd outside [c] := by
  have hline : headLine (client [c]).input = ⟨[c],.eof,fromClient []⟩ := headLine_single hc
  have hfill : ∀ x, x ≠ 0 → cstr ((headLine (client [c]).input).fill (stale outside x).buf.1) =
      if c = 0 then [] else [c,x] := by
    intro x hx
    have hf : (headLine (client [c]).input).fill (stale outside x).buf.1 =
        c :: (stale outside x).buf.1.drop 1 := by
      rw [hline]
      rfl
    have hd := stale_buf outside hx
    rw [hf]
    generalize (stale outside x).buf.1.drop 1 = d at hd ⊢
    by_cases h0 : c = 0
    · simp [h0,cstr]
    · rw [if_neg h0,cstr_eq_cons h0]
      exact ⟨d,rfl,hd⟩
  by_cases hword : c = 0 ∨ isspace c = true
  · apply not_isolated_of_method [] (by simp)
    intro x hx hs
    rw [Frame.method',Frame.scan,hfill x hx]
    by_cases h0 : c = 0
    · rw [if_pos h0,sscanf3_none rfl]
      exact stale_method outside hx
    · have ht : scanToken [c,x] = some ([x],[]) := by
        simp [scanToken,hword.resolve_left h0,hs,List.span,List.span.loop]
      rw [if_neg h0,sscanf3_method ht]
      simp [cstr,hx]
  · simp only [not_or,Bool.not_eq_true] at hword
    apply not_isolated_of_method [c] (by simp)
    intro x hx hs
    have ht : scanToken [c,x] = some ([c,x],[]) := by
      simp [scanToken,hword.2,hs,List.span,List.span.loop]
    rw [Frame.method',Frame.scan,hfill x hx,if_neg hword.1,sscanf3_method ht]
    simp [cstr,hx,hword.1]

theorem answer_letters_ne : answer (verdict fs fd (true,ascii ".A",[])) ≠
    answer (verdict fs fd (true,ascii ".B",[])) := by
  have hv : ∀ p, (∃ req, verdict fs fd (true,p,[]) = .ok req ∧ req.filename = p.take (MAXBUF-1)) ∨
      verdict fs fd (true,p,[]) = .error (notFound p) ∨
      verdict fs fd (true,p,[]) = .error (unreadable p) := by
    intro p
    cases hs : fs.stat p with
    | none => simp [verdict,hs]
    | some sbuf => by_cases hp : permitted true sbuf.stMode = true <;> simp [verdict,hs,hp]
  rcases hv (ascii ".A") with ⟨q,hq,hqf⟩ | hA | hA <;>
    rcases hv (ascii ".B") with ⟨q',hq',hqf'⟩ | hB | hB
  · intro h
    rw [hq,hq'] at h
    simp only [answer,Prod.mk.injEq,Option.some.injEq,and_true] at h
    rw [h,hqf'] at hqf
    revert hqf
    decide
  · simp [hq,hB,answer]
  · simp [hq,hB,answer]
  · simp [hA,hq',answer]
  · rw [hA,hB]; decide +kernel
  · rw [hA,hB]; decide +kernel
  · simp [hA,hq',answer]
  · rw [hA,hB]; decide +kernel
  · rw [hA,hB]; decide +kernel

theorem not_isolated_of_no_uri (hb : ∀ c, c ≠ 10 → bytes ≠ [c]) {method rest : List UInt8}
    (hm : scanToken (cstr (takeLine (MAXBUF-1) bytes)) = some (method,rest))
    (hget : isGet method = true) (hu : scanToken rest = none)
    (hd : Drained outside.1.1 (pieces (bytes.drop (takeLine (MAXBUF-1) bytes).length))) :
    ¬ Isolated fs fd outside bytes := by
  intro hiso
  have huri : ∀ x, x ≠ 0 → (stale outside x).uri' (headLine (client bytes).input) = [x] := by
    intro x hx
    rw [Frame.uri',scan_line hb,sscanf3_uri_stale hm hu]
    exact stale_uri outside hx
  have hgx : ∀ x, isGet ((stale outside x).method' (headLine (client bytes).input)) = true := by
    intro x
    rw [method_line hb hm,hget]
  obtain ⟨s,hs⟩ := client_head_ends.mpr hd
  obtain ⟨r',hr',h₁,h₂⟩ := hiso (stale outside 65) (stale outside 66) rfl rfl _
    ((parses_get client_line_ok (hgx 65)).mpr ⟨s,hs,conclude_const _ rfl rfl⟩)
  obtain ⟨s',_,hr'⟩ := (parses_get client_line_ok (hgx 66)).mp hr'
  rw [conclude_const _ rfl rfl] at hr'
  cases hr'
  rw [huri 65 (by decide),huri 66 (by decide)] at *
  exact answer_letters_ne (Prod.ext h₁.symm (List.append_cancel_left h₂).symm)

end Leaks

/-- Two clients that send the same bytes get the same answer, exactly when the
first line has what the answer needs. -/
theorem answer_isolated (fs : FileSystem) (fd : Nat) (outside : CharArray MAXBUF × UInt8)
    (bytes : List UInt8) :
    Isolated fs fd outside bytes ↔ SelfContained outside.1.1 bytes := by
  refine ⟨fun hiso => ?_,isolated_of_selfContained⟩
  have hb : ∀ c, c ≠ 10 → bytes ≠ [c] := by
    rintro c hc rfl
    exact not_isolated_of_single hc hiso
  refine ⟨hb,?_⟩
  cases hm : scanToken (cstr (takeLine (MAXBUF-1) bytes)) with
  | none => exact absurd hiso (not_isolated_of_blank hb hm)
  | some p =>
    obtain ⟨method,rest⟩ := p
    refine ⟨method,rest,rfl,?_⟩
    by_contra hn
    simp only [not_or,Bool.not_eq_false,not_not] at hn
    exact not_isolated_of_no_uri hb hm hn.1 hn.2.1 hn.2.2 hiso

/-- An empty line, after requests with the methods A and B. -/
theorem blank_line_not_isolated :
    ¬ Isolated ⟨fun _ => none,fun _ => none,fun _ _ => none⟩ 4 (zeroed,0) (ascii "\r\n") := by
  apply not_isolated_of_blank
  · intro c _ h
    simpa [ascii] using congrArg List.length h
  · decide

end ConcurrentWebServer.Requests
