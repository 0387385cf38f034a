import ConcurrentWebServer.LoadClientModel
import Mathlib.Data.Rat.Defs
set_option autoImplicit false

/-! The requests of a campaign are drawn from the generator alone. -/

namespace ConcurrentWebServer.LoadClient
open Execution

section Streams

variable {A B : Type}

theorem get_unfolds (g : A → B) (f : A → A) (a : A) (n : Nat) :
    (Stream'.unfolds g f a).get n = g (f^[n] a) := by
  induction n generalizing a with
  | zero => rfl
  | succ n ih =>
    rw [Stream'.unfolds_eq,Stream'.get_succ_cons,ih]
    rfl

theorem take_prefix_or (s : Stream' A) (m n : Nat) :
    s.take m <+: s.take n ∨ s.take n <+: s.take m := by
  rcases Nat.le_total m n with h | h
  · refine .inl ?_
    rw [← Nat.min_eq_right h,← Stream'.take_take]
    exact List.take_prefix _ _
  · refine .inr ?_
    rw [← Nat.min_eq_right h,← Stream'.take_take]
    exact List.take_prefix _ _

end Streams

variable {F G : Type} [Add F] [Sub F] [Mul F] [Div F] [OfScientific F] [LT F] [DecidableLT F]
  [LE F] [DecidableLE F]

/-- All the requests that a generator stands for, whatever the clock says. -/
def workload (rng : Generator G F) (c : Campaign F) (gen : G) : Stream' (String × FileType) :=
  Stream'.unfolds (fun g => (chooseFile rng c g).1) (fun g => (chooseFile rng c g).2) gen

structure OnCourse (rng : Generator G F) (c : Campaign F) (gen : G) (d : Dispatcher F G) :
    Prop where
  requests : d.requests = (workload rng c gen).take d.requests.length
  gen : d.gen = (fun g => (chooseFile rng c g).2)^[d.requests.length] gen

variable {rng : Generator G F} {c : Campaign F} {gen : G} {d : Dispatcher F G}

theorem round_cases (rng : Generator G F) (c : Campaign F) (d : Dispatcher F G) :
    ((dispatchRound rng c d).requests = d.requests ++ [(chooseFile rng c d.gen).1] ∧
      (dispatchRound rng c d).gen = (chooseFile rng c d.gen).2) ∨
    ((dispatchRound rng c d).requests = d.requests ∧ (dispatchRound rng c d).gen = d.gen) := by
  by_cases ht : (1.0 : F) ≤ pyMin (d.tokens+(d.clock.head-d.lastTick)*c.rate) c.rate
  · refine .inl ⟨?_,?_⟩
    · simp [dispatchRound,ht,Dispatcher.requests,Effect.request,Task.request]
    · simp [dispatchRound,ht]
  · refine .inr ⟨?_,?_⟩
    · simp [dispatchRound,ht,Dispatcher.requests,Effect.request]
    · simp [dispatchRound,ht]

theorem OnCourse.round (h : OnCourse rng c gen d) : OnCourse rng c gen (dispatchRound rng c d) := by
  rcases round_cases rng c d with ⟨hreq,hgen⟩ | ⟨hreq,hgen⟩
  · have hnext : (workload rng c gen).get d.requests.length = (chooseFile rng c d.gen).1 := by
      rw [workload,get_unfolds,h.gen]
    refine ⟨?_,?_⟩
    · rw [hreq,List.length_append,List.length_singleton,Stream'.take_succ',← h.requests,hnext]
    · rw [hgen,hreq,List.length_append,List.length_singleton,Function.iterate_succ_apply',← h.gen]
  · refine ⟨?_,?_⟩
    · rw [hreq]
      exact h.requests
    · rw [hgen,hreq]
      exact h.gen

def dispatchAfter (rng : Generator G F) (c : Campaign F) (gen : G) (clock : Stream' F) (n : Nat) :
    Dispatcher F G :=
  rounds (beforeDeadline (clock.head+c.duration)) (dispatchRound rng c) n (.start gen clock)

theorem dispatchAfter_onCourse (rng : Generator G F) (c : Campaign F) (gen : G) (clock : Stream' F)
    (n : Nat) : OnCourse rng c gen (dispatchAfter rng c gen clock n) := by
  rw [dispatchAfter,rounds]
  induction n with
  | zero => exact ⟨rfl,rfl⟩
  | succ n ih =>
    rw [Function.iterate_succ_apply']
    split_ifs
    · exact ih.round
    · exact ih

theorem dispatcherFn_requests {clock : Stream' F} {n : Nat}
    (h : dispatcherFn rng c gen clock n = .done d) :
    d.requests = (dispatchAfter rng c gen clock n).requests := by
  obtain ⟨d₀,hloop,hd⟩ := bind_eq_done.mp h
  rw [loop_rounds _ hloop] at hd
  cases hd
  simp [Dispatcher.requests,dispatchAfter,Effect.request]

theorem requests_prefix (rng : Generator G F) (c : Campaign F) (gen : G) (rate duration : F)
    (clock clock' : Stream' F) (n n' : Nat) :
    let d := dispatchAfter rng c gen clock n
    let d' := dispatchAfter rng { c with rate := rate, duration := duration } gen clock' n'
    d.requests <+: d'.requests ∨ d'.requests <+: d.requests := by
  intro d d'
  have hd := (dispatchAfter_onCourse rng c gen clock n).requests
  have hd' := (dispatchAfter_onCourse rng { c with rate := rate, duration := duration } gen
    clock' n').requests
  have hsame : workload rng { c with rate := rate, duration := duration } gen =
    workload rng c gen := rfl
  rw [hsame] at hd'
  rw [hd,hd']
  exact take_prefix_or _ _ _

/-- Of two campaigns with the same files, ratio and state of the generator, one
sends the first requests of the other, also while they are under way. -/
theorem same_requests (rng : Generator G F) (c : Campaign F) (gen : G) (rate duration : F)
    (clock clock' : Stream' F) (n n' : Nat) :
    (let d := dispatchAfter rng c gen clock n
     let d' := dispatchAfter rng { c with rate := rate, duration := duration } gen clock' n'
     d.requests <+: d'.requests ∨ d'.requests <+: d.requests) ∧
    ∀ d d', dispatcherFn rng c gen clock n = .done d →
      dispatcherFn rng { c with rate := rate, duration := duration } gen clock' n' = .done d' →
      d.requests <+: d'.requests ∨ d'.requests <+: d.requests := by
  have hstart := requests_prefix rng c gen rate duration clock clock' n n'
  refine ⟨hstart,fun d d' h h' => ?_⟩
  rw [dispatcherFn_requests h,dispatcherFn_requests h']
  exact hstart

def counting : Generator Nat Rat := ⟨fun g => (0.5,g+1),fun g uris => (uris.1.head uris.2,g+1)⟩

def fourSeconds : Campaign Rat where
  smallUris := ⟨["/small/a.html"],by decide⟩
  largeUris := ⟨["/large/b.html"],by decide⟩
  smallRatio := 0.8
  rate := 1
  duration := 4

theorem same_requests_shorter : ∃ d d',
    dispatcherFn counting fourSeconds 0 (fun n => n) 9 = .done d ∧
    dispatcherFn counting { fourSeconds with rate := 2, duration := 3 } 0 (fun n => n) 9 =
      .done d' ∧
    d.requests.length = 2 ∧ (d.requests <+: d'.requests ∨ d'.requests <+: d.requests) := by
  have h : (dispatcherFn counting fourSeconds 0 (fun n => n) 9).map Dispatcher.requests =
      .done [("/small/a.html",.small),("/small/a.html",.small)] := by decide +kernel
  have h' : (dispatcherFn counting { fourSeconds with rate := 2, duration := 3 } 0 (fun n => n)
      9).map Dispatcher.requests = .done [("/small/a.html",.small)] := by decide +kernel
  obtain ⟨d,hd,hreq⟩ := map_eq_done.mp h
  obtain ⟨d',hd',_⟩ := map_eq_done.mp h'
  exact ⟨d,d',hd,hd',by rw [hreq]; rfl,(same_requests _ _ _ _ _ _ _ _ _).2 d d' hd hd'⟩

end ConcurrentWebServer.LoadClient
