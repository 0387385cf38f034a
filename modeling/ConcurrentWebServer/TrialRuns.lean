import ConcurrentWebServer.CampaignResults
import ConcurrentWebServer.CommandLine
set_option autoImplicit false

/-!
One trial of run_experiments.sh from end to end: the server that its command
line starts, the requests of load_client.py, and what the summary says of them.
-/

namespace ConcurrentWebServer.LoadClient
open Execution CStrings PosixFiles PythonText Queueing Requests Server

section Server

def word (l : List Char) : List UInt8 := l.map fun c => c.toNat.toUInt8

def PORT : String := "10000"

def Trial.serverWords (www : List UInt8) (t : Trial) : List (List UInt8) :=
  [ascii "-d",www,ascii "-p",ascii PORT,ascii "-t",word t.serverThreads,ascii "-b",ascii "16",
    ascii "-s",word t.policy]

def Trial.options (www : List UInt8) (t : Trial) : Options where
  rootDir := www
  port := 10000
  numThreads := if t.scenario = ['C'] then 12 else 8
  bufSize := 16
  policy := if t.policy = "sff".toList then .sff else .fifo

theorem trials_words : ∀ t ∈ trials, ∀ www, t.serverWords www =
    allWords www (ascii PORT) (word t.serverThreads) (ascii "16") (word t.policy) :=
  fun _ _ _ => rfl

theorem trials_arguments : ∀ t ∈ trials,
    atoi (word t.serverThreads) = (if t.scenario = ['C'] then 12 else 8) ∧
    (strcaseeq (word t.policy) (ascii "sff") ∨ strcaseeq (word t.policy) (ascii "fifo")) ∧
    policyNamed (word t.policy) = (if t.policy = "sff".toList then .sff else .fifo) := by
  decide +kernel

theorem trial_options {t : Trial} (ht : t ∈ trials) (www : List UInt8) :
    mainOptions (t.serverWords www) = .ok (t.options www) := by
  obtain ⟨hthreads,hname,hpolicy⟩ := trials_arguments t ht
  have hport : atoi (ascii PORT) = 10000 := by decide
  have hsize : atoi (ascii "16") = 16 := by decide
  have hone : 1 ≤ atoi (word t.serverThreads) := by
    rw [hthreads]
    split_ifs <;> decide
  rw [trials_words t ht,allWords_read _ _ hone (by decide) hname,hport,hsize,hthreads,hpolicy]
  rfl

theorem options_valid (www : List UInt8) (t : Trial) : (t.options www).Valid := by
  constructor <;> unfold Trial.options INT_MAX <;> dsimp only
  · omega
  · split_ifs <;> omega
  · omega

end Server

section Rows

variable {W : Type} {s : Process W} {uri : Nat → String} {ftype : Nat → FileType}

/-- A row for a request that had a connection of its own, on which `http_get`
read to the end of what the server had sent. -/
def Fetched (s : Process W) (uri : Nat → String) (ftype : Nat → FileType) (row : Row ℚ) : Prop :=
  ∃ c < s.accepted, ∃ (chunks : List (List UInt8)) (fuel : Nat) (now tsMs t0 t1 : ℚ)
      (got : Option (ℚ × Int × Nat)),
    [] ∉ chunks ∧ chunks.flatten = (s.conns c).sent ∧ chunks.length < fuel ∧ t0 ≤ t1 ∧
      httpGet fuel t0 t1 (incoming chunks) = .done got ∧
      row = workerRow ⟨uri c,ftype c,now⟩ tsMs got

theorem fetched_row {row : Row ℚ} (h : Fetched s uri ftype row)
    (hm : ∀ c < s.accepted, Measured ℚ s (ftype c) c) :
    0 ≤ row.lat ∧ row.status = 200 ∧ row.size = row.ftype.received := by
  obtain ⟨c,hlt,chunks,fuel,now,tsMs,t0,t1,got,hne,hcut,hf,hle,hget,rfl⟩ := h
  rw [hm c hlt chunks hne hcut fuel hf t0 t1] at hget
  cases hget
  refine ⟨?_,rfl,rfl⟩
  exact mul_nonneg (sub_nonneg.mpr hle) (by norm_num)

theorem fetched_exists {c : Nat} (hlt : c < s.accepted) :
    ∃ row : Row ℚ, Fetched s uri ftype row ∧ Answers ⟨uri c,ftype c,0⟩ row := by
  obtain ⟨chunks,hne,hcut⟩ : ∃ chunks : List (List UInt8),
      [] ∉ chunks ∧ chunks.flatten = (s.conns c).sent := by
    cases (s.conns c).sent with
    | nil => exact ⟨[],by simp,rfl⟩
    | cons x l => exact ⟨[x :: l],by simp,by simp⟩
  have hget := httpGet_incoming (F := ℚ) 0 0 hne (Nat.lt_succ_self chunks.length)
  exact ⟨_,⟨c,hlt,chunks,_,0,0,0,0,_,hne,hcut,Nat.lt_succ_self _,le_refl _,hget,rfl⟩,_,_,rfl⟩

end Rows

section Summaries

variable {V : Type} [DecidableEq V] [Fintype V] {root : ℚ → ℚ} {maxsize : Nat}
  {load : LoadPhase ℚ V}

theorem summary_clean (h : LoadReaches maxsize (.start _ _ _) load)
    (hj : load.main = .joined)
    (hrows : ∀ row ∈ load.rows, 0 ≤ row.lat ∧ row.status = 200) {wallSecs : ℚ}
    (hwall : 0 < wallSecs) :
    ∃ st, summarize root wallSecs load.rows = .done st ∧ st.nErrors = 0 ∧
      st.nTotal = load.dispatched.length ∧
      |st.throughputRps*wallSecs-load.dispatched.length| ≤ wallSecs/2000 := by
  obtain ⟨st,hst,hcons,_⟩ := summarize_consistent root wallSecs load.rows
  have hk := Polling.runs_kept answers_request h
  have hlen := congrArg Multiset.card (hk.all_rows (hk.done hj))
  simp only [Multiset.coe_card,List.length_map] at hlen
  have hall : (load.rows.countP fun r => 0 ≤ r.lat && r.status == 200) = load.rows.length := by
    refine List.countP_eq_length.mpr fun row hrow => ?_
    obtain ⟨hlat,hstatus⟩ := hrows row hrow
    simp [hlat,hstatus]
  have herrors := hcons.errors
  have hrate := hcons.throughput hwall
  rw [hall,hcons.total] at herrors
  rw [hall,hlen] at hrate
  exact ⟨st,hst,by omega,hcons.total.trans hlen,hrate⟩

end Summaries

section Trials

variable {inputs : Nat → Stream' Received} {uri host : Nat → String} {ftype : Nat → FileType}
  {boot : Boot} {malloced : Int → Job} {creator : Creator} {tree : Tree} {who : Identity}
  {run : List UInt8 → List UInt8 → Option (List UInt8)} {listing : FileType → List String}
  {V : Type} [DecidableEq V] [Fintype V] {root : ℚ → ℚ} {maxsize : Nat} {t : Trial}

/-- In each trial, whatever its policy: the command line of the script starts a
server with the threads and the slots that the trial is meant to have; that
server comes to rest behind any requests for the files of setup_files.sh; and
a load phase that has had the replies reports no error, each request that was
put, and a throughput of their number. -/
theorem trial_measured (ht : t ∈ trials) (www : List UInt8) (hsite : setupFiles creator = some tree)
    (hperm : permitted true creator.mode = true) (hread : (creator.inode []).mayRead who = true)
    (hlist : ∀ ftype, Lists tree ftype.dir (listing ftype))
    (huri : ∀ c, uri c ∈ discover (ftype c).dir (listing (ftype c)))
    (hhost : ∀ c, 10 ∉ encode (host c))
    (hin : ∀ c, inputs c = fromClient (encode (requestText (uri c) (host c))))
    (hfree : {fd | boot.fds fd = none}.Infinite) :
    ∃ o b₀, mainOptions (t.serverWords www) = .ok o ∧ o = t.options www ∧
      bufferInit malloced o.bufSize.toNat o.policy = .done b₀ ∧
      ∀ s, Reaches (seenBy who run tree) inputs
          (Process.start (Fin o.numThreads.toNat) boot b₀) s →
        (∃ n s', Goes (seenBy who run tree) inputs n 0 s s' ∧
          ∀ s'', ¬ Working (seenBy who run tree) inputs s' s'') ∧
        ∀ n k s', Goes (seenBy who run tree) inputs n k s s' →
          (∀ s'', ¬ Working (seenBy who run tree) inputs s' s'') →
          ∀ load : LoadPhase ℚ V, LoadReaches maxsize (.start _ _ _) load → load.main = .joined →
            (∀ row ∈ load.rows, Fetched s' uri ftype row) → ∀ wallSecs, 0 < wallSecs →
            ∃ st, summarize root wallSecs load.rows = .done st ∧ st.nErrors = 0 ∧
              st.nTotal = load.dispatched.length ∧
              |st.throughputRps*wallSecs-load.dispatched.length| ≤ wallSecs/2000 ∧
              ∀ row ∈ load.rows, row.status = 200 ∧ row.size = row.ftype.received := by
  have hvalid := options_valid www t
  have hslots : FitsInt (t.options www).policy (t.options www).bufSize.toNat :=
    fitsInt_of_le _ 16 (by decide) (by decide)
  have hpool : Nonempty (Fin (t.options www).numThreads.toNat) := by
    have hone := hvalid.numThreads.1
    exact ⟨⟨0,by omega⟩⟩
  have hbuf : bufferInit malloced (t.options www).bufSize.toNat (t.options www).policy = .done _ :=
    bufferInit_done malloced hslots.pos _
  have hpage : ∀ c, ∃ content, content.length = (ftype c).bytes ∧
      Page (seenBy who run tree) (encode (uri c)) content :=
    discovered_page hsite hperm hread hlist huri
  have hu := discovered_sendable hsite hlist huri hhost
  refine ⟨_,_,trial_options ht www,rfl,hbuf,fun s hs => ⟨?_,?_⟩⟩
  · exact comes_to_rest hslots hbuf hin (fun c => (hu c).proper) (discovered_servable hpage) hs
  · intro n k s' hg hstop load hload hj hfetched wallSecs hwall
    have hmeasured : ∀ c < s'.accepted, Measured ℚ s' (ftype c) c := by
      intro c hlt
      rw [hg.accepted] at hlt
      exact measured_at_rest hslots hbuf hpage hu hin hfree hs hg hstop hlt
    have hrows := fun row hrow => fetched_row (hfetched row hrow) hmeasured
    obtain ⟨st,hst,herrors,htotal,hrate⟩ := summary_clean hload hj
      (fun row hrow => ⟨(hrows row hrow).1,(hrows row hrow).2.1⟩) hwall
    exact ⟨st,hst,herrors,htotal,hrate,fun row hrow => (hrows row hrow).2⟩

theorem trial_measured_one : ∃ st : Stats, st.nErrors = 0 ∧ st.nTotal = 1 ∧
    |st.throughputRps*60-1| ≤ 60/2000 := by
  obtain ⟨t,ht⟩ : ∃ t, t ∈ trials := List.exists_mem_of_ne_nil trials (by decide +kernel)
  obtain ⟨tree,hsite⟩ := setupFiles_some ⟨0o100644,1000,1000⟩
  obtain ⟨ftype,hftype⟩ : ∃ ftype : Nat → FileType, ∀ c, ftype c = .small := ⟨_,fun _ => rfl⟩
  have hsmall : ∀ c, "/small/small_01.html" ∈ discover (ftype c).dir (ftype c).names := by
    intro c
    rw [hftype]
    have hname : "small_01.html" ∈ FileType.names .small := by decide
    exact discover_mem hname (by decide)
  have hhost : 10 ∉ encode "localhost" := by decide
  have hread : (Creator.inode ⟨0o100644,1000,1000⟩ []).mayRead ⟨1000,[1000]⟩ = true := by decide
  obtain ⟨o,b₀,_,_,_,hall⟩ := @trial_measured _ _ _ ftype ⟨fun _ => none,by simp⟩
    (fun _ => ⟨⟨0,[],[],true,0⟩,0⟩) _ tree ⟨1000,[1000]⟩ (fun _ _ => none) _ Unit _ _
    id 300 t ht (ascii "www") hsite (by decide) hread
    (fun _ => setupFiles_lists hsite) hsmall (fun _ => hhost) (fun _ => rfl) free_infinite
  obtain ⟨⟨n,s',hg,hstop⟩,hrest⟩ := hall _ (.single (.accept 4 rfl rfl))
  have hone : 0 < s'.accepted := by
    rw [hg.accepted]
    exact Nat.one_pos
  obtain ⟨row,hrow,hanswers⟩ :=
    @fetched_exists _ s' (fun _ => "/small/small_01.html") ftype 0 hone
  obtain ⟨load,hload,hj,hrows,hput⟩ : ∃ load : LoadPhase ℚ Unit,
      LoadReaches 300 (.start _ _ _) load ∧ load.main = .joined ∧ load.rows = [row] ∧
        load.dispatched.length = 1 :=
    ⟨_,((((((Relation.ReflTransGen.refl).tail
      ⟨.other,.put ⟨"/small/small_01.html",ftype 0,0⟩ rfl (by decide),trivial⟩).tail
      ⟨.other,.get () rfl rfl,trivial⟩).tail ⟨.set,.set rfl,trivial⟩).tail
      ⟨.other,.append () row rfl hanswers,trivial⟩).tail
      ⟨.other,.taskDone () rfl rfl,trivial⟩).tail ⟨.other,.join rfl rfl,trivial⟩,rfl,rfl,rfl⟩
  obtain ⟨st,_,herrors,htotal,hrate,_⟩ := hrest n 0 s' hg hstop load hload hj
    (by rw [hrows]; simpa using hrow) 60 (by norm_num)
  rw [hput] at htotal hrate
  exact ⟨st,herrors,htotal,by exact_mod_cast hrate⟩

end Trials

end ConcurrentWebServer.LoadClient
