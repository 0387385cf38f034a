import ConcurrentWebServer.CommandLine
import ConcurrentWebServer.ServerDrain
set_option autoImplicit false

/-!
wserver.c of CodeBase, with one thread: a command line for it starts the server
with workers as well, and that one serves its clients as it would.
-/

namespace ConcurrentWebServer.Server
open Execution CStrings GetOpt Queueing Requests

structure CodeBaseOptions where
  rootDir : List UInt8
  port : Int
  deriving DecidableEq

def CodeBaseOptions.initial : CodeBaseOptions := ⟨ascii ".",10000⟩

def codeBaseOptstring : List UInt8 := ascii "d:p:"

def CodeBaseOptions.set (o : CodeBaseOptions) (c : Found) : Except String CodeBaseOptions :=
  let optarg := c.2.getD []
  if c.1 = 100 then .ok { o with rootDir := optarg }
  else if c.1 = 112 then .ok { o with port := atoi optarg }
  else .error "usage: wserver [-d basedir] [-p port]\n"

def codeBaseMain (argv : List (List UInt8)) : Except String CodeBaseOptions :=
  whileGetopt codeBaseOptstring CodeBaseOptions.set ⟨[],argv⟩ .initial

/-- The same directory and port, served with a pool as it is by default. -/
def CodeBaseOptions.pooled (o : CodeBaseOptions) : Options :=
  ⟨o.rootDir,o.port,DEFAULT_THREADS,DEFAULT_BUF_SIZE,DEFAULT_POLICY⟩

section Options

variable {os : List Found} {o o' : CodeBaseOptions} {c : Found}

theorem codeBase_set (h : o.set c = .ok o') : c ≠ bad ∧ o.pooled.set c = .ok o'.pooled := by
  unfold CodeBaseOptions.set at h
  split_ifs at h with hd hp
  · cases h
    exact ⟨fun hb => by simp [hb,bad] at hd,if_pos hd⟩
  · cases h
    refine ⟨fun hb => by simp [hb,bad] at hp,?_⟩
    rw [Options.set,if_neg hd,if_pos hp]
    rfl

theorem codeBase_fold (h : os.foldlM CodeBaseOptions.set o = .ok o') :
    bad ∉ os ∧ os.foldlM Options.set o.pooled = .ok o'.pooled := by
  induction os generalizing o with
  | nil =>
    cases h
    exact ⟨List.not_mem_nil,rfl⟩
  | cons c os ih =>
    rw [List.foldlM_cons] at h
    cases hset : o.set c with
    | error message =>
      rw [hset] at h
      cases h
    | ok o₁ =>
      rw [hset] at h
      obtain ⟨hgood,hfold⟩ := ih h
      obtain ⟨hne,hpooled⟩ := codeBase_set hset
      refine ⟨List.not_mem_cons_of_ne_of_not_mem hne.symm hgood,?_⟩
      rw [List.foldlM_cons,hpooled]
      exact hfold

theorem codeBase_wants (c : UInt8) (b : Bool) (h : wants codeBaseOptstring c = some b) :
    wants optstring c = some b := by
  have hletters : codeBaseOptstring = [100,58,112,58] := by decide
  have hmore : optstring = [100,58,112,58,116,58,98,58,115,58] := by decide
  rw [hletters] at h
  rw [hmore]
  simp only [wants] at h ⊢
  grind

theorem codeBase_options {argv : List (List UInt8)} (h : codeBaseMain argv = .ok o) :
    mainOptions argv = .ok o.pooled := by
  rw [codeBaseMain,whileGetopt_eq] at h
  obtain ⟨hgood,hfold⟩ := codeBase_fold h
  have hspelled := (spelled ⟨[],argv⟩).extend codeBase_wants hgood
  rw [mainOptions,whileGetopt_eq,hspelled.found]
  exact hfold

end Options

section Runs

variable {fs : FileSystem} {inputs : Nat → Stream' Received}
  {bytes method uri : Nat → List UInt8} {boot : Boot} {malloced : Int → Job}

/-- Whoever starts the server with workers by a command line for the
single-threaded one gets the same directory and port, and the default pool; and
from each state that it reaches, it comes to rest with every connection closed
once, and with the reply on it that the single-threaded server gives. -/
theorem drop_in_server {argv : List (List UInt8)} {o : CodeBaseOptions}
    (h : codeBaseMain argv = .ok o) (hin : ∀ c, inputs c = fromClient (bytes c))
    (hp : ∀ c, Proper (bytes c) (method c) (uri c))
    (hserve : ∀ c req, Vetted fs (uri c) req → Servable fs req)
    (hfree : {fd | boot.fds fd = none}.Infinite) :
    ∃ opts b₀, mainOptions argv = .ok opts ∧ opts = o.pooled ∧
      bufferInit malloced opts.bufSize.toNat opts.policy = .done b₀ ∧
      ∀ s, Reaches fs inputs (Process.start (Fin opts.numThreads.toNat) boot b₀) s →
        (∃ n s', Goes fs inputs n 0 s s' ∧ ∀ s'', ¬ Working fs inputs s' s'') ∧
        ∀ n k s', Goes fs inputs n k s s' → (∀ s'', ¬ Working fs inputs s' s'') →
          s'.closed.map Prod.fst = Multiset.range s.accepted ∧
          ∀ c < s.accepted, Replies fs (bytes c) (s'.conns c).sent ∧
            (s'.conns c).isOpen = false := by
  have hslots : FitsInt o.pooled.policy o.pooled.bufSize.toNat :=
    fitsInt_of_le DEFAULT_POLICY DEFAULT_BUF_SIZE.toNat (by decide) (by decide)
  have hpool : Nonempty (Fin o.pooled.numThreads.toNat) := by
    change Nonempty (Fin DEFAULT_THREADS.toNat)
    exact ⟨0,by decide⟩
  have hbuf : bufferInit malloced o.pooled.bufSize.toNat o.pooled.policy = .done _ :=
    bufferInit_done malloced hslots.pos _
  refine ⟨_,_,codeBase_options h,rfl,hbuf,fun s hs => ⟨?_,?_⟩⟩
  · exact comes_to_rest hslots hbuf hin hp hserve hs
  · intro n k s' hg hstop
    have hdrained := drained_at_rest hslots hbuf hin hp hserve hfree hs hg hstop
    rw [← hg.accepted]
    exact ⟨hdrained.closed,hdrained.replies⟩

theorem drop_in_server_cgi : ∃ (opts : Options) (s : Process (Fin opts.numThreads.toNat)),
    mainOptions [ascii "-p8080",ascii "-d",ascii "www"] = .ok opts ∧
      opts = ⟨ascii "www",8080,DEFAULT_THREADS,DEFAULT_BUF_SIZE,DEFAULT_POLICY⟩ ∧
      s.accepted = 1 ∧ Replies cgiFs cgiBytes (s.conns 0).sent := by
  have hspelled : Spelled codeBaseOptstring [(112,some (ascii "8080")),(100,some (ascii "www"))]
      ⟨[],[ascii "-p8080",ascii "-d",ascii "www"]⟩ :=
    .enter (by decide) (.attached (by decide) (by decide)
      (.enter (by decide) (.separate (by decide) .nil)))
  have h : codeBaseMain [ascii "-p8080",ascii "-d",ascii "www"] = .ok ⟨ascii "www",8080⟩ := by
    rw [codeBaseMain,whileGetopt_eq,hspelled.found]
    decide
  obtain ⟨opts,b₀,hopts,hpool,_,hall⟩ := @drop_in_server cgiFs (fun _ => fromClient cgiBytes)
    (fun _ => cgiBytes) (fun _ => ascii "GET") _ _ (fun _ => ⟨⟨0,[],[],true,0⟩,0⟩) _ _ h
    (fun _ => rfl) (fun _ => cgiBytes_proper) cgiFs_servable free_infinite
  obtain ⟨⟨n,s',hg,hstop⟩,hrest⟩ := hall _ (.single (.accept 4 rfl rfl))
  obtain ⟨_,hreplies⟩ := hrest n 0 s' hg hstop
  exact ⟨opts,s',hopts,hpool,hg.accepted,(hreplies 0 Nat.one_pos).1⟩

end Runs

end ConcurrentWebServer.Server
