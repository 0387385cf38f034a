import ConcurrentWebServer.RequestOutcomes
set_option autoImplicit false

/-! Connections whose reads and writes can find anything at any call. -/

namespace ConcurrentWebServer.Requests
open Execution CStrings

section Heads

def restAt : Nat → Stream' Received → Stream' Received
  | 0, s => s
  | k+1, s => restAt k (headLine s).rest

def lineAt (k : Nat) (s : Stream' Received) : Piece := headLine (restAt k s)

/-- Before line `k` the buffer holds an LF behind its first byte: the last line
that was not ended by the stream within two bytes had two bytes, or there was
none and the array held it before. -/
def StaleAt (buf : List UInt8) (s : Stream' Received) : Nat → Prop
  | 0 => Stale buf
  | k+1 => ((lineAt k s).stop = .eof ∧ (lineAt k s).bytes.length ≤ 1 ∧ StaleAt buf s k) ∨
      ∃ x, (lineAt k s).bytes = [x,10]

/-- Line `k` ends the head: it is CR LF, or a lone CR at an end of the stream
in front of a stale LF. -/
def EndsAt (buf : List UInt8) (s : Stream' Received) (k : Nat) : Prop :=
  (lineAt k s).bytes = crlf ∨
    ((lineAt k s).stop = .eof ∧ (lineAt k s).bytes = [13] ∧ StaleAt buf s k)

def HeadArrives (buf : List UInt8) (s : Stream' Received) : Prop :=
  ∃ k, EndsAt buf s k ∧ ∀ i ≤ k, (lineAt i s).stop ≠ .error

variable {buf : List UInt8} {s : Stream' Received}

theorem staleAt_shift (h : (headLine s).stop ≠ .error) (k : Nat) :
    StaleAt buf s (k+1) ↔ StaleAt ((headLine s).fill buf) (headLine s).rest k := by
  induction k with
  | zero => exact (stale_fill h buf).symm
  | succ k ih =>
    change (_ ∧ _ ∧ StaleAt buf s (k+1)) ∨ _ ↔ _
    rw [ih]
    rfl

theorem endsAt_zero :
    EndsAt buf s 0 ↔ cstr ((headLine s).fill buf) = crlf := by
  rw [fill_eq_crlf (headLine_isLine s),bare_iff]
  constructor
  · rintro (h | ⟨hs,hb,hst⟩)
    · exact .inl h
    · have hb' : (headLine s).bytes = [13] := hb
      exact .inr ⟨⟨hs,by rw [hb']; rfl⟩,hb,hst⟩
  · rintro (h | ⟨⟨hs,_⟩,hb,hst⟩)
    · exact .inl h
    · exact .inr ⟨hs,hb,hst⟩

theorem endsAt_shift (h : (headLine s).stop ≠ .error) (k : Nat) :
    EndsAt buf s (k+1) ↔ EndsAt ((headLine s).fill buf) (headLine s).rest k := by
  change _ ∨ (_ ∧ _ ∧ StaleAt buf s (k+1)) ↔ _
  rw [staleAt_shift h]
  rfl

theorem headEnds_iff : (∃ r, HeadEnds buf s r) ↔ HeadArrives buf s := by
  constructor
  · rintro ⟨r,hr⟩
    induction hr with
    | last he hb =>
      refine ⟨0,endsAt_zero.mpr hb,fun i hi => ?_⟩
      rw [Nat.le_zero.mp hi]
      exact he
    | next he _ _ ih =>
      obtain ⟨k,hk,hok⟩ := ih
      refine ⟨k+1,(endsAt_shift he k).mpr hk,fun i hi => ?_⟩
      cases i with
      | zero => exact he
      | succ i => exact hok i (by omega)
  · rintro ⟨k,hk,hok⟩
    induction k generalizing buf s with
    | zero => exact ⟨_,.last (hok 0 (Nat.le_refl 0)) (endsAt_zero.mp hk)⟩
    | succ k ih =>
      have he := hok 0 (Nat.zero_le _)
      by_cases hb : cstr ((headLine s).fill buf) = crlf
      · exact ⟨_,.last he hb⟩
      · obtain ⟨r,hr⟩ := ih ((endsAt_shift he k).mp hk) fun i hi => hok (i+1) (by omega)
        exact ⟨r,.next he hb hr⟩

end Heads

section Contracts

/-- What is promised of `request_parse`: `0` with the request and the
connection open, or `-1` with the connection closed. -/
def ParseReturns (fs : FileSystem) (f : Frame) (fd : Nat) (conn : Conn) : Prop :=
  ∃ r conn', Parses fs f fd conn (r,conn') ∧
    ((∃ req, r = some req ∧ req.connFd = fd ∧ conn'.isOpen = true) ∨
      (r = none ∧ conn'.isOpen = false))

def ServeReturns (fs : FileSystem) (req : Request) (conn : Conn) : Prop :=
  ∃ conn', requestServe fs req conn = .done conn' ∧ conn'.isOpen = false

def WritesPass (n : Nat) (writes : Stream' Accepted) : Prop := ∀ i < n, writes.get i ≠ .error

def Admitted (fs : FileSystem) (resolved : Bool × List UInt8 × List UInt8) : Prop :=
  ∃ sbuf, fs.stat resolved.2.1 = some sbuf ∧ permitted resolved.1 sbuf.stMode = true

/-- No read fails up to the end of the head, the head has an end, and if it is
answered with an error page, its four writes do not fail. -/
def ParseSpared (fs : FileSystem) (f : Frame) (conn : Conn) : Prop :=
  (headLine conn.input).stop ≠ .error ∧
  (isGet (f.method' (headLine conn.input)) = false → WritesPass 4 conn.outcomes) ∧
  (isGet (f.method' (headLine conn.input)) = true →
    HeadArrives f.headers.1 (headLine conn.input).rest ∧
    (¬ Admitted fs (requestParseUri f.below (f.uri' (headLine conn.input))) →
      WritesPass 4 conn.outcomes))

/-- The writes of the reply do not fail, and a file can be opened and mapped, and
read as far as it is written. -/
def ServeSpared (fs : FileSystem) (req : Request) (conn : Conn) : Prop :=
  if req.isStatic then
    WritesPass 2 conn.outcomes ∧ 0 < req.filesize ∧
      ∃ content, fs.contents req.filename = some content ∧ content ≠ [] ∧
        (conn.outcomes.get 1).reach req.filesize.toNat ≤ pageEnd content.length
  else WritesPass 1 conn.outcomes

theorem verdict_error_iff {fs : FileSystem} (fd : Nat) {resolved : Bool × List UInt8 × List UInt8} :
    (∃ p, verdict fs fd resolved = .error p) ↔ ¬ Admitted fs resolved := by
  cases hs : fs.stat resolved.2.1 with
  | none => simp [verdict,Admitted,hs]
  | some sbuf => cases hp : permitted resolved.1 sbuf.stMode <;> simp [verdict,Admitted,hs,hp]

theorem verdict_ok_of_admitted {fs : FileSystem} (fd : Nat)
    {resolved : Bool × List UInt8 × List UInt8} (h : Admitted fs resolved) :
    ∃ req, verdict fs fd resolved = .ok req := by
  cases hv : verdict fs fd resolved with
  | ok req => exact ⟨req,rfl⟩
  | error p => exact absurd h ((verdict_error_iff fd).mp ⟨p,hv⟩)

theorem page_returns {conn : Conn} (hopen : conn.isOpen = true) (p : ErrorPage)
    (s : Stream' Received) :
    (∃ r, conclude (.error p) { conn with input := s } = .done r) ↔ WritesPass 4 conn.outcomes :=
  conclude_error_returns hopen

theorem parseReturns_of_conclude {v : Except ErrorPage Request} {fs : FileSystem} {f : Frame}
    {fd : Nat} {conn : Conn} {s : Stream' Received} {r : Option Request × Conn}
    (hopen : conn.isOpen = true)
    (hv : ∀ req, v = .ok req → req.connFd = fd) (hr : conclude v { conn with input := s } = .done r)
    (h : Parses fs f fd conn r) : ParseReturns fs f fd conn := by
  refine ⟨r.1,r.2,h,?_⟩
  rcases conclude_done hr with ⟨_,_,h₁,h₂⟩ | ⟨req,hreq,rfl⟩
  · exact .inr ⟨h₁,h₂⟩
  · exact .inl ⟨req,rfl,hv req hreq,hopen⟩

theorem parseReturns_iff (fs : FileSystem) (f : Frame) (fd : Nat) {conn : Conn}
    (hopen : conn.isOpen = true) : ParseReturns fs f fd conn ↔ ParseSpared fs f conn := by
  constructor
  · rintro ⟨r,conn',h,_⟩
    have hs := parses_ne_error h
    refine ⟨hs,fun hm => ?_,fun hm => ?_⟩
    · have hc := (parses_other hs hm).mp h
      exact (page_returns hopen _ _).mp ⟨_,hc⟩
    · obtain ⟨t,hends,hc⟩ := (parses_get hs hm).mp h
      refine ⟨headEnds_iff.mp ⟨t,hends⟩,fun hno => ?_⟩
      obtain ⟨p,hp⟩ := (verdict_error_iff fd).mpr hno
      have hc' := hp ▸ hc
      exact (page_returns hopen _ _).mp ⟨_,hc'⟩
  · rintro ⟨hs,hother,hget⟩
    cases hm : isGet (f.method' (headLine conn.input)) with
    | false =>
      obtain ⟨r,hr⟩ := (page_returns hopen _ _).mpr (hother hm)
      have hp : Parses fs f fd conn r := (parses_other hs hm).mpr hr
      exact parseReturns_of_conclude hopen (by simp) hr hp
    | true =>
      obtain ⟨hhead,hpage⟩ := hget hm
      obtain ⟨t,hends⟩ := headEnds_iff.mpr hhead
      have hex : ∃ r, conclude
          (verdict fs fd (requestParseUri f.below (f.uri' (headLine conn.input))))
          { conn with input := t } = .done r := by
        cases ha : verdict fs fd (requestParseUri f.below (f.uri' (headLine conn.input))) with
        | ok req => exact ⟨_,rfl⟩
        | error p =>
          have hw := hpage ((verdict_error_iff fd).mp ⟨p,ha⟩)
          exact (page_returns hopen p t).mpr hw
      obtain ⟨r,hr⟩ := hex
      refine parseReturns_of_conclude hopen ?_ hr ((parses_get hs hm).mpr ⟨t,hends,hr⟩)
      intro req hreq
      obtain ⟨_,_,_,rfl⟩ := verdict_ok hreq
      rfl

theorem mapped_ne_nil {content : List UInt8} {len : Int} (hc : content ≠ []) (hl : 0 < len) :
    mapped content len.toNat ≠ [] := by
  have hpos : len.toNat ≠ 0 := by omega
  simp [mapped,hc,hpos]

theorem reach_mapped (a : Accepted) (content : List UInt8) (n : Nat) :
    a.reach n ≤ (mapped content n).length ↔ a.reach n ≤ pageEnd content.length := by
  have hle := a.reach_le n
  have hend : content.length ≤ pageEnd content.length := Nat.le_add_right _ _
  simp only [mapped,List.length_take,List.length_append,List.length_replicate]
  omega

theorem requestServeStatic_eq {fs : FileSystem} {filename content : List UInt8} {size : Int}
    (h : fs.contents filename = some content) (hc : content ≠ []) (hs : 0 < size) (conn : Conn) :
    requestServeStatic fs filename size conn = (do
      let conn ← writeOrDie conn (staticHeader size (requestGetFiletype filename))
      check (decide (conn.outcomes.head.reach size.toNat ≤ pageEnd content.length))
      writeOrDie conn (mapped content size.toNat)) := by
  have hm : (mapped content size.toNat).isEmpty = false := by
    simpa using mapped_ne_nil hc hs
  simp [requestServeStatic,openOrDie,mmapOrDie,h,hs,writeMapped,hm,reach_mapped]

theorem writeOrDie_outcomes {conn conn' : Conn} {p : List UInt8}
    (h : writeOrDie conn p = .done conn') :
    conn'.outcomes = conn.outcomes.tail ∧ conn.outcomes.head ≠ .error := by
  unfold writeOrDie at h
  cases hh : conn.outcomes.head with
  | error => simp [hh] at h
  | all =>
    simp only [hh,pure_eq,Exec.done.injEq] at h
    exact ⟨h ▸ rfl,by simp⟩
  | atMost k =>
    simp only [hh,pure_eq,Exec.done.injEq] at h
    exact ⟨h ▸ rfl,by simp⟩

theorem requestServeStatic_done {fs : FileSystem} {filename content : List UInt8} {size : Int}
    (h : fs.contents filename = some content) (hc : content ≠ []) (hs : 0 < size) {conn : Conn}
    (hr : (conn.outcomes.get 1).reach size.toNat ≤ pageEnd content.length) :
    requestServeStatic fs filename size conn = writeAll conn
      [staticHeader size (requestGetFiletype filename),mapped content size.toNat] := by
  rw [requestServeStatic_eq h hc hs]
  simp only [writeAll,bind_done]
  cases hw : writeOrDie conn (staticHeader size (requestGetFiletype filename)) with
  | abort => rfl
  | unfinished => rfl
  | done conn₁ =>
    have hhead : conn₁.outcomes.head = conn.outcomes.get 1 := by
      rw [(writeOrDie_outcomes hw).1]
      rfl
    simp [hhead,hr]

theorem requestServeStatic_needs {fs : FileSystem} {filename : List UInt8} {size : Int}
    {conn conn' : Conn} (h : requestServeStatic fs filename size conn = .done conn') :
    0 < size ∧ ∃ content, fs.contents filename = some content ∧ content ≠ [] ∧
      (conn.outcomes.get 1).reach size.toNat ≤ pageEnd content.length := by
  cases hf : fs.contents filename with
  | none => simp [requestServeStatic,openOrDie,hf] at h
  | some content =>
    by_cases hs : 0 < size
    · have hne : content ≠ [] := by
        rintro rfl
        cases hw : writeOrDie conn (staticHeader size (requestGetFiletype filename)) <;>
          simp [requestServeStatic,openOrDie,mmapOrDie,hf,hs,writeMapped,hw,mapped,pageEnd] at h
      refine ⟨hs,content,rfl,hne,?_⟩
      rw [requestServeStatic_eq hf hne hs] at h
      obtain ⟨conn₁,hw,h⟩ := bind_eq_done.mp h
      have hhead : conn₁.outcomes.head = conn.outcomes.get 1 := by
        rw [(writeOrDie_outcomes hw).1]
        rfl
      by_contra hr
      simp [hhead,hr] at h
    · simp [requestServeStatic,openOrDie,mmapOrDie,hf,hs] at h

theorem requestServeStatic_sent {fs : FileSystem} {filename content : List UInt8} {size : Int}
    {conn : Conn} (hw : WritesPass 2 conn.outcomes) (h : fs.contents filename = some content)
    (hc : content ≠ []) (hs : 0 < size)
    (hr : (conn.outcomes.get 1).reach size.toNat ≤ pageEnd content.length) :
    ∃ sent, requestServeStatic fs filename size conn =
      .done { conn with outcomes := conn.outcomes.drop 2, sent := sent } := by
  rw [requestServeStatic_done h hc hs hr]
  exact writeAll_done conn (show ∀ i < [staticHeader size (requestGetFiletype filename),
    mapped content size.toNat].length, _ from hw)

theorem requestServeStatic_returns {fs : FileSystem} {filename : List UInt8} {size : Int}
    {conn : Conn} : (∃ conn', requestServeStatic fs filename size conn = .done conn') ↔
      WritesPass 2 conn.outcomes ∧ 0 < size ∧
        ∃ content, fs.contents filename = some content ∧ content ≠ [] ∧
          (conn.outcomes.get 1).reach size.toNat ≤ pageEnd content.length := by
  constructor
  · rintro ⟨conn',h⟩
    obtain ⟨hsize,content,hf,hne,hr⟩ := requestServeStatic_needs h
    refine ⟨fun i hi he => ?_,hsize,content,hf,hne,hr⟩
    have hfail : ∃ i < [staticHeader size (requestGetFiletype filename),
        mapped content size.toNat].length, conn.outcomes.get i = .error := ⟨i,hi,he⟩
    rw [requestServeStatic_done hf hne hsize hr,writeAll_error _ hfail] at h
    cases h
  · rintro ⟨hw,hsize,content,hf,hne,hr⟩
    obtain ⟨sent,hs⟩ := requestServeStatic_sent hw hf hne hsize hr
    exact ⟨_,hs⟩

theorem requestServeDynamic_eq (fs : FileSystem) (filename cgiargs : List UInt8) (conn : Conn) :
    requestServeDynamic fs filename cgiargs conn = (do
      let conn ← writeAll conn [dynamicHeader]
      pure { conn with sent := conn.sent ++ (fs.execve filename cgiargs).getD [] }) := by
  simp [requestServeDynamic,writeAll]

theorem serveReturns_iff (fs : FileSystem) (req : Request) {conn : Conn}
    (hopen : conn.isOpen = true) : ServeReturns fs req conn ↔ ServeSpared fs req conn := by
  rw [ServeSpared]
  cases hst : req.isStatic with
  | false =>
    simp only [ServeReturns,requestServe,hst,Bool.false_eq_true,if_false,requestServeDynamic_eq]
    constructor
    · rintro ⟨conn',h,_⟩ i hi he
      have hfail : ∃ i < [dynamicHeader].length, conn.outcomes.get i = .error := ⟨i,hi,he⟩
      simp [writeAll_error _ hfail] at h
    · intro h
      obtain ⟨sent,hs⟩ := writeAll_done conn (show ∀ i < [dynamicHeader].length, _ from h)
      rw [hs]
      simp [closeOrDie,hopen]
  | true =>
    simp only [ServeReturns,requestServe,hst,if_true]
    constructor
    · rintro ⟨conn',h,_⟩
      obtain ⟨conn₁,h₁,_⟩ := bind_eq_done.mp h
      exact requestServeStatic_returns.mp ⟨conn₁,h₁⟩
    · rintro ⟨hw,hsize,content,hf,hne,hr⟩
      obtain ⟨sent,hs⟩ := requestServeStatic_sent hw hf hne hsize hr
      rw [hs]
      simp [closeOrDie,hopen]

/-- Which connections are handled without dragging the process down. -/
theorem failing_connection (fs : FileSystem) (reads : Stream' Received)
    (writes : Stream' Accepted) :
    (∀ f fd, ParseReturns fs f fd (Conn.fresh reads writes) ↔
      ParseSpared fs f (Conn.fresh reads writes)) ∧
    ∀ req, ServeReturns fs req (Conn.fresh reads writes) ↔
      ServeSpared fs req (Conn.fresh reads writes) :=
  ⟨fun f fd => parseReturns_iff fs f fd rfl,fun req => serveReturns_iff fs req rfl⟩

/-- A client that resets the connection before its first byte. -/
theorem reset_aborts :
    requestParse ⟨fun _ => none,fun _ => none,fun _ _ => none⟩ .zeros 0 4
      (Conn.fresh (Stream'.const .error) (Stream'.const .all)) = .abort ∧
    ¬ ParseReturns ⟨fun _ => none,fun _ => none,fun _ _ => none⟩ .zeros 4
      (Conn.fresh (Stream'.const .error) (Stream'.const .all)) := by
  refine ⟨rfl,?_⟩
  rintro ⟨r,conn',h,_⟩
  exact parses_ne_error h rfl

end Contracts

end ConcurrentWebServer.Requests
