import ConcurrentWebServer.HttpGet
import ConcurrentWebServer.ServerDrain
set_option autoImplicit false

/-! What the load client records of its requests once the server has come to rest. -/

namespace ConcurrentWebServer.LoadClient
open Execution CStrings MesaMonitor PythonText Queueing Requests Server

section Statuses

def statusFor (fs : FileSystem) (uri : List UInt8) : Int :=
  let (isStatic,filename,_) := requestParseUri 0 uri
  match fs.stat filename with
  | none => 404
  | some sbuf => if permitted isStatic sbuf.stMode then 200 else 403

theorem statusOf_page {p : ErrorPage} {errnum shortmsg : String}
    (he : p.errnum = ascii errnum) (hs : p.shortmsg = ascii shortmsg)
    (hline : 13 ∉ ascii "HTTP/1.0 " ++ ascii errnum ++ ascii " " ++ ascii shortmsg) :
    statusOf p.bytes =
      lineStatus (ascii "HTTP/1.0 " ++ ascii errnum ++ ascii " " ++ ascii shortmsg) := by
  have hend : ascii "\r\n" = [13,10] := by decide
  have hbytes : ∃ r, p.bytes =
      (ascii "HTTP/1.0 " ++ ascii errnum ++ ascii " " ++ ascii shortmsg) ++ 13 :: 10 :: r := by
    simp only [ErrorPage.bytes,ErrorPage.chunks,List.flatten_cons,hend,he,hs,List.append_assoc,
      List.cons_append,List.nil_append]
    exact ⟨_,rfl⟩
  obtain ⟨r,hr⟩ := hbytes
  rw [hr,statusOf_line hline]

theorem statusOf_notFound (filename : List UInt8) : statusOf (notFound filename).bytes = 404 := by
  rw [statusOf_page (p := notFound filename) rfl rfl (by decide)]
  decide

theorem statusOf_unreadable (filename : List UInt8) :
    statusOf (unreadable filename).bytes = 403 := by
  rw [statusOf_page (p := unreadable filename) rfl rfl (by decide)]
  decide

theorem statusOf_unrunnable (filename : List UInt8) :
    statusOf (unrunnable filename).bytes = 403 := by
  rw [statusOf_page (p := unrunnable filename) rfl rfl (by decide)]
  decide

theorem statusOf_ok (r : List UInt8) :
    statusOf (ascii "HTTP/1.0 200 OK" ++ 13 :: 10 :: r) = 200 := by
  rw [statusOf_line (by decide)]
  decide

variable {fs : FileSystem} {bytes uri out : List UInt8}

theorem replies_status (hp : Proper bytes (ascii "GET") uri) (hr : Replies fs bytes out)
    (hserve : ∀ req, Vetted fs uri req → Servable fs req) : statusOf out = statusFor fs uri := by
  have hget : isGet (ascii "GET") = true := by decide
  have hv : outcome fs 0 (ascii "GET") uri = verdict fs 0 (requestParseUri 0 uri) := by
    simp [outcome,hget]
  have hans : ∀ {out'}, Requests.Answers fs out' (outcome fs 0 (ascii "GET") uri) → out = out' :=
    fun ha => hp.reply_unique hr (hp.replies ha)
  cases ho : outcome fs 0 (ascii "GET") uri with
  | error p =>
    have hout : out = p.bytes := hans (by rw [ho]; rfl)
    rw [hv,verdict] at ho
    simp only [statusFor]
    cases hst : fs.stat (requestParseUri 0 uri).2.1 with
    | none =>
      simp only [hst,Except.error.injEq] at ho
      rw [hout,← ho,statusOf_notFound]
    | some sbuf =>
      simp only [hst] at ho
      by_cases hperm : permitted (requestParseUri 0 uri).1 sbuf.stMode = true
      · simp [hperm] at ho
      · simp only [hperm,Bool.false_eq_true,if_false,Except.error.injEq] at ho ⊢
        rw [hout,← ho]
        cases (requestParseUri 0 uri).1 with
        | true => exact statusOf_unreadable _
        | false => exact statusOf_unrunnable _
  | ok req =>
    have hvet := hp.vetted ho
    have hok : statusFor fs uri = 200 := by
      obtain ⟨sbuf,hst,hperm,_⟩ := hvet.admitted
      simp only [statusFor,hvet.resolved]
      simp [hst,hperm]
    rw [hok]
    have hserved := hserve req hvet
    cases hstatic : req.isStatic with
    | true =>
      obtain ⟨content,srcp,hopen,hmap,hne⟩ := hserved.file hstatic
      have hout := hans (by rw [ho]; exact serves_static hstatic hopen hmap hne)
      have hline : ascii "HTTP/1.0 200 OK\r\nServer: OSTEP WebServer\r\nContent-Length: " =
          ascii "HTTP/1.0 200 OK" ++
            13 :: 10 :: ascii "Server: OSTEP WebServer\r\nContent-Length: " := by
        decide
      rw [hout,staticHeader,hline]
      simp only [List.append_assoc,List.cons_append]
      exact statusOf_ok _
    | false =>
      obtain ⟨output,hx⟩ := hserved.program hstatic
      have hout := hans (by rw [ho]; exact serves_dynamic hstatic hx)
      have hline : dynamicHeader =
          ascii "HTTP/1.0 200 OK" ++ 13 :: 10 :: ascii "Server: OSTEP WebServer\r\n" := by
        decide
      rw [hout,hline]
      simp only [List.append_assoc,List.cons_append]
      exact statusOf_ok _

end Statuses

section Runs

variable {W : Type} [Fintype W] [DecidableEq W] {fs : FileSystem}
  {inputs : Nat → Stream' Received} {uri host : Nat → String} {boot : Boot} {capacity : Nat}
  {policy : SchedPolicy} {malloced : Int → Job} {b₀ : Buffer Job} {s s' : Process W}
  {F : Type} [Sub F] [Mul F] [OfScientific F]

/-- `c` is recorded with the status of its file and the length of the reply of
the single-threaded server, in whatever chunks it comes. -/
def Recorded (F : Type) [Sub F] [Mul F] [OfScientific F] (fs : FileSystem)
    (uri host : Nat → String) (s : Process W) (c : Nat) : Prop :=
  ∃ out, Replies fs (encode (requestText (uri c) (host c))) out ∧
    ∀ chunks : List (List UInt8), [] ∉ chunks → chunks.flatten = (s.conns c).sent →
      ∀ fuel, chunks.length < fuel → ∀ t0 t1 : F,
        httpGet fuel t0 t1 (incoming chunks) =
          .done (some ((t1-t0)*1000.0,statusFor fs (encode (uri c)),out.length))

omit [Fintype W] [DecidableEq W] in
theorem recorded_of_replies {c : Nat} (hu : Sendable (uri c) (host c))
    (hserve : ∀ req, Vetted fs (encode (uri c)) req → Servable fs req)
    (hr : Replies fs (encode (requestText (uri c) (host c))) (s.conns c).sent) :
    Recorded F fs uri host s c := by
  refine ⟨_,hr,fun chunks hne hcut fuel hf t0 t1 => ?_⟩
  rw [httpGet_incoming t0 t1 hne hf,hcut,replies_status hu.proper hr hserve]

theorem recorded_at_rest [Nonempty W] (hc : FitsInt policy capacity)
    (hinit : bufferInit malloced capacity policy = .done b₀)
    (hin : ∀ c, inputs c = fromClient (encode (requestText (uri c) (host c))))
    (hu : ∀ c, Sendable (uri c) (host c))
    (hserve : ∀ c req, Vetted fs (encode (uri c)) req → Servable fs req)
    (hfree : {fd | boot.fds fd = none}.Infinite)
    (h : Reaches fs inputs (Process.start W boot b₀) s) {n k : Nat} (hg : Goes fs inputs n k s s')
    (hstop : ∀ s'', ¬ Working fs inputs s' s'') {c : Nat} (hlt : c < s.accepted) :
    Recorded F fs uri host s' c := by
  have hd := drained_at_rest hc hinit hin (fun c => (hu c).proper) hserve hfree h hg hstop
  exact recorded_of_replies (hu c) (hserve c) (hd.replies c (by rwa [hg.accepted])).1

/-- From any state on, the server comes to rest without a further `accept`, and
whenever it has come to rest each of its clients has its answer. -/
theorem clients_recorded [Nonempty W] (hc : FitsInt policy capacity)
    (hinit : bufferInit malloced capacity policy = .done b₀)
    (hin : ∀ c, inputs c = fromClient (encode (requestText (uri c) (host c))))
    (hu : ∀ c, Sendable (uri c) (host c))
    (hserve : ∀ c req, Vetted fs (encode (uri c)) req → Servable fs req)
    (hfree : {fd | boot.fds fd = none}.Infinite)
    (h : Reaches fs inputs (Process.start W boot b₀) s) :
    (∀ n k s', Goes fs inputs n k s s' → (∀ s'', ¬ Working fs inputs s' s'') →
      s'.accepted = s.accepted ∧ ∀ c < s.accepted, Recorded F fs uri host s' c) ∧
    ∃ n s', Goes fs inputs n 0 s s' ∧ ∀ c < s.accepted, Recorded F fs uri host s' c := by
  refine ⟨fun n k s' hg hstop => ⟨hg.accepted,fun c hlt => ?_⟩,?_⟩
  · exact recorded_at_rest hc hinit hin hu hserve hfree h hg hstop hlt
  · obtain ⟨n,s',hg,hstop⟩ := comes_to_rest hc hinit hin (fun c => (hu c).proper) hserve h
    exact ⟨n,s',hg,fun c hlt => recorded_at_rest hc hinit hin hu hserve hfree h hg hstop hlt⟩

theorem clients_recorded_cgi : ∃ s : Process (Fin 2), s.accepted = 1 ∧
    Recorded ℚ cgiFs (fun _ => "/cgi") (fun _ => "localhost") s 0 := by
  have hu : Sendable "/cgi" "localhost" := ⟨by decide,plain_of_all (by decide),by decide,by decide⟩
  have huri : encode "/cgi" = ascii "/cgi" := by decide
  have hrun : Reaches cgiFs (fun _ => fromClient (encode (requestText "/cgi" "localhost")))
      (Process.start (Fin 2) ⟨fun _ => none,by simp⟩
        ⟨fun _ => ⟨⟨0,[],[],true,0⟩,0⟩,1,0,0,0,.sff⟩) _ :=
    .single (.accept 4 rfl rfl)
  have hrest : ∃ n s', Goes cgiFs _ n 0 _ s' ∧
      ∀ c < 1, Recorded ℚ cgiFs (fun _ => "/cgi") (fun _ => "localhost") s' c :=
    (clients_recorded (fitsInt_of_le .sff 1 (by decide) (by decide)) rfl (fun _ => rfl)
      (fun _ => hu) (fun c req hv => cgiFs_servable c req (huri ▸ hv)) free_infinite hrun).2
  obtain ⟨n,s',hg,hrec⟩ := hrest
  exact ⟨s',hg.accepted,hrec 0 (by decide)⟩

end Runs

end ConcurrentWebServer.LoadClient
