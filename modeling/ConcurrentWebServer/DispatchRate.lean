import ConcurrentWebServer.TokenBucket
import ConcurrentWebServer.Workload
import Mathlib.Algebra.Order.Archimedean.Basic
import Mathlib.Algebra.Order.Ring.Unbundled.Rat
import Mathlib.Data.Rat.Floor
set_option autoImplicit false

/-! `dispatcher_fn` as a token bucket, over exact rationals. -/

namespace ConcurrentWebServer.LoadClient
open Execution TokenBucket

section Runs

variable {F G : Type}

def Effect.task : Effect F → Option (Task F)
  | .put task => some task
  | .sleep _ | .set => none

def Dispatcher.tasks (d : Dispatcher F G) : List (Task F) := d.effects.filterMap Effect.task

theorem requests_eq_tasks (d : Dispatcher F G) : d.requests = d.tasks.map Task.request := by
  rw [Dispatcher.requests,Dispatcher.tasks,List.map_filterMap]
  congr 1
  funext e
  cases e <;> rfl

variable [Add F] [Sub F] [Mul F] [Div F] [OfScientific F] [LT F] [DecidableLT F] [LE F]
  [DecidableLE F] {rng : Generator G F} {c : Campaign F} {gen : G} {clock : Stream' F}

theorem dispatchRound_clock (rng : Generator G F) (c : Campaign F) (d : Dispatcher F G) :
    (dispatchRound rng c d).clock = d.clock.tail ∧
      (dispatchRound rng c d).lastTick = d.clock.head := by
  simp only [dispatchRound]
  split_ifs
  · exact ⟨rfl,rfl⟩
  · exact ⟨rfl,rfl⟩

theorem dispatchAfter_succ (n : Nat) :
    dispatchAfter rng c gen clock (n+1) =
      if beforeDeadline (clock.head+c.duration) (dispatchAfter rng c gen clock n) then
        dispatchRound rng c (dispatchAfter rng c gen clock n)
      else dispatchAfter rng c gen clock n :=
  Function.iterate_succ_apply' ..

theorem dispatchAfter_clock (rng : Generator G F) (c : Campaign F) (gen : G) (clock : Stream' F)
    (n : Nat) :
    ∃ k, (dispatchAfter rng c gen clock n).clock = clock.drop (k+2) ∧
      (dispatchAfter rng c gen clock n).lastTick = clock.get (k+1) := by
  induction n with
  | zero => exact ⟨0,rfl,rfl⟩
  | succ n ih =>
    obtain ⟨k,hclock,hlast⟩ := ih
    rw [dispatchAfter_succ]
    split_ifs
    · obtain ⟨htail,hhead⟩ := dispatchRound_clock rng c (dispatchAfter rng c gen clock n)
      rw [hclock] at htail hhead
      exact ⟨k+1,htail.trans Stream'.tail_drop',hhead.trans (Stream'.head_drop _ _)⟩
    · exact ⟨k,hclock,hlast⟩

theorem dispatchAfter_induction {P : Dispatcher F G → Prop} (hstart : P (.start gen clock))
    (hround : ∀ d k, d.clock = clock.drop (k+2) → d.lastTick = clock.get (k+1) →
      beforeDeadline (clock.head+c.duration) d = true → P d → P (dispatchRound rng c d)) (n : Nat) :
    P (dispatchAfter rng c gen clock n) := by
  induction n with
  | zero => exact hstart
  | succ n ih =>
    obtain ⟨k,hclock,hlast⟩ := dispatchAfter_clock rng c gen clock n
    rw [dispatchAfter_succ]
    split_ifs with hb
    · exact hround _ k hclock hlast hb ih
    · exact ih

end Runs

section Bucket

variable {G : Type} {rng : Generator G ℚ} {c : Campaign ℚ} {gen : G} {clock : Stream' ℚ}
  {d : Dispatcher ℚ G}

def Dispatcher.bucket (d : Dispatcher ℚ G) : Bucket ℚ :=
  ⟨d.tokens,d.lastTick,d.tasks.map Task.now⟩

def Dispatcher.refilled (c : Campaign ℚ) (d : Dispatcher ℚ G) : ℚ :=
  pyMin (d.tokens+(d.clock.head-d.lastTick)*c.rate) c.rate

def Dispatcher.dispatched (d : Dispatcher ℚ G) (s e : ℚ) : Nat :=
  d.tasks.countP fun task => s ≤ task.now ∧ task.now ≤ e

theorem pyMin_eq (a b : ℚ) : pyMin a b = min a b := by
  unfold pyMin
  split_ifs with h
  · exact (min_eq_right h.le).symm
  · exact (min_eq_left (not_lt.mp h)).symm

theorem refilled_eq : d.refilled c = d.bucket.refill c.rate c.rate d.clock.head := by
  rw [Dispatcher.refilled,pyMin_eq]
  rfl

theorem taken_eq (s e : ℚ) : d.bucket.taken s e = d.dispatched s e := by
  rw [Bucket.taken,Dispatcher.bucket,List.countP_map]
  rfl

theorem grants_length : d.bucket.grants.length = d.requests.length := by
  rw [requests_eq_tasks,List.length_map,Dispatcher.bucket,List.length_map]

theorem dispatchRound_bucket :
    (dispatchRound rng c d).bucket = d.bucket.read c.rate c.rate d.clock.head := by
  have hfill := refilled_eq (c := c) (d := d)
  unfold Dispatcher.refilled at hfill
  have hone : (1.0 : ℚ) = 1 := by norm_num
  by_cases h : 1 ≤ d.bucket.refill c.rate c.rate d.clock.head
  · simp only [dispatchRound,hfill,hone,Bucket.read,if_pos h]
    simp [Dispatcher.bucket,Dispatcher.tasks,Effect.task]
  · simp only [dispatchRound,hfill,hone,Bucket.read,if_neg h]
    simp [Dispatcher.bucket,Dispatcher.tasks,Effect.task]

theorem bucket_induction {P : Bucket ℚ → Prop} (hstart : P ⟨1,clock.get 1,[]⟩)
    (hread : ∀ b k, b.last = clock.get (k+1) → clock.get (k+2) < clock.get 0+c.duration → P b →
      P (b.read c.rate c.rate (clock.get (k+2)))) (n : Nat) :
    P (dispatchAfter rng c gen clock n).bucket := by
  have hone : (1.0 : ℚ) = 1 := by norm_num
  refine dispatchAfter_induction (P := fun d => P d.bucket) ?_ ?_ n
  · rwa [Dispatcher.start,hone]
  · intro d k hclock hlast hbefore hp
    have hhead : d.clock.head = clock.get (k+2) := by rw [hclock,Stream'.head_drop]
    have hlt : clock.get (k+2) < clock.get 0+c.duration := by
      simpa [beforeDeadline,hhead] using hbefore
    rw [dispatchRound_bucket,hhead]
    exact hread d.bucket k hlast hlt hp

end Bucket

section Bursts

variable {G : Type} {rng : Generator G ℚ} {c : Campaign ℚ} {gen : G} {clock : Stream' ℚ}

theorem dispatchAfter_tokens (hr : 0 < c.rate) (hclock : ∀ k, clock.get (k+1) ≤ clock.get (k+2))
    (n : Nat) : 0 ≤ (dispatchAfter rng c gen clock n).tokens := by
  refine bucket_induction (P := fun b => 0 ≤ b.level) (by norm_num) ?_ n
  intro b k hlast _ hb
  exact level_nonneg hr.le hr.le hb (hlast ▸ hclock k)

theorem dispatchAfter_window (hr : 0 < c.rate) (hclock : ∀ k, clock.get (k+1) ≤ clock.get (k+2))
    {s e : ℚ} (hse : s ≤ e) (n : Nat) :
    Window c.rate c.rate s e (dispatchAfter rng c gen clock n).bucket := by
  suffices hboth : 0 ≤ (dispatchAfter rng c gen clock n).bucket.level ∧
      Window c.rate c.rate s e (dispatchAfter rng c gen clock n).bucket from hboth.2
  refine bucket_induction (P := fun b => 0 ≤ b.level ∧ Window c.rate c.rate s e b)
    ⟨by norm_num,window_start hr.le hr.le hse 1 _⟩ ?_ n
  · intro b k hlast _ hb
    have hnow := hlast ▸ hclock k
    exact ⟨level_nonneg hr.le hr.le hb.1 hnow,hb.2.read hr.le hr.le hse hb.1 hnow⟩

/-- However the clock jumps, no window of readings sees more than its length in
requests, and those of one second. -/
theorem burst_capped (rng : Generator G ℚ) (c : Campaign ℚ) (gen : G) (clock : Stream' ℚ)
    (hr : 0 < c.rate) (hclock : ∀ k, clock.get (k+1) ≤ clock.get (k+2)) (n : Nat) :
    let d := dispatchAfter rng c gen clock n
    (∀ s e, s ≤ e → (d.dispatched s e : ℚ) ≤ c.rate*(e-s)+c.rate) ∧
      0 ≤ d.tokens ∧ 0 ≤ d.refilled c ∧ d.refilled c ≤ c.rate := by
  have htokens : 0 ≤ (dispatchAfter rng c gen clock n).tokens :=
    dispatchAfter_tokens hr hclock n
  refine ⟨fun s e hse => ?_,htokens,?_,?_⟩
  · rw [← taken_eq]
    exact (dispatchAfter_window hr hclock hse n).bound hr.le hr.le hse htokens
  · obtain ⟨k,hnext,hlast⟩ := dispatchAfter_clock rng c gen clock n
    rw [refilled_eq]
    refine refill_nonneg hr.le hr.le htokens ?_
    rw [hnext,Stream'.head_drop]
    exact hlast.trans_le (hclock k)
  · rw [refilled_eq]
    exact refill_le_cap

theorem burst_capped_jump :
    ((dispatchAfter counting { fourSeconds with rate := 3 } 0 (fun n => n) 5).dispatched 1 3 : ℚ) ≤
      3*(3-1)+3 :=
  (burst_capped counting { fourSeconds with rate := 3 } 0 (fun n => n) (by norm_num)
    (fun k => by simp [Stream'.get]) 5).1 1 3 (by norm_num)

end Bursts

section Rates

variable {G : Type} {rng : Generator G ℚ} {c : Campaign ℚ} {gen : G} {clock : Stream' ℚ}

/-- Up to the deadline the clock does not go back, and is read at least once an
interval. -/
def Paced (rate duration : ℚ) (clock : Stream' ℚ) : Prop :=
  ∀ k, clock.get (k+2) < clock.get 0+duration →
    clock.get (k+1) ≤ clock.get (k+2) ∧ clock.get (k+2)-clock.get (k+1) ≤ 1/rate

def KeepsRate (rng : Generator G ℚ) (c : Campaign ℚ) (gen : G) : Prop :=
  ∀ duration clock, Paced c.rate duration clock → ∀ n,
    let d := dispatchAfter rng { c with duration := duration } gen clock n
    let t := d.lastTick-clock.get 1
    (⌊c.rate*t⌋ : ℚ) ≤ d.requests.length ∧ (d.requests.length : ℚ) ≤ 1+c.rate*t

/-- A bucket for two tokens does not run over. -/
theorem keepsRate_of_two_le (h : 2 ≤ c.rate) : KeepsRate rng c gen := by
  intro duration clock hpaced n
  have hr : 0 < c.rate := by linarith
  have hkept : let b := (dispatchAfter rng { c with duration := duration } gen clock n).bucket
      0 ≤ b.level ∧ b.level ≤ 1 ∧ b.total = 1+(b.last-clock.get 1)*c.rate := by
    refine bucket_induction (P := fun b => 0 ≤ b.level ∧ b.level ≤ 1 ∧
      b.total = 1+(b.last-clock.get 1)*c.rate) ⟨by norm_num,by norm_num,by simp [Bucket.total]⟩ ?_ n
    intro b k hlast hlt hb
    obtain ⟨hlow,hhigh,htotal⟩ := hb
    obtain ⟨hback,hgap⟩ := hpaced k hlt
    rw [← hlast] at hback hgap
    have hin : (clock.get (k+2)-b.last)*c.rate ≤ 1 := (le_div_iff₀ hr).mp hgap
    obtain ⟨hall,hone⟩ := total_read_eq hhigh hin h
    refine ⟨level_nonneg hr.le hr.le hlow hback,hone,?_⟩
    rw [hall,htotal,read_last]
    ring
  obtain ⟨hlow,hhigh,htotal⟩ := hkept
  rw [Bucket.total,grants_length] at htotal
  have hfloor := Int.floor_le (c.rate*((dispatchAfter rng { c with duration := duration } gen
    clock n).lastTick-clock.get 1))
  simp only [Dispatcher.bucket] at hlow hhigh htotal
  constructor
  · linarith
  · linarith

def bucketAfter (rate : ℚ) (clock : Stream' ℚ) : Nat → Bucket ℚ
  | 0 => ⟨1,clock.get 1,[]⟩
  | n+1 => (bucketAfter rate clock n).read rate rate (clock.get (n+2))

theorem dispatchAfter_bucket {n : Nat}
    (h : ∀ i < n, clock.get (i+2) < clock.get 0+c.duration) :
    (dispatchAfter rng c gen clock n).bucket = bucketAfter c.rate clock n ∧
      (dispatchAfter rng c gen clock n).clock = clock.drop (n+2) := by
  induction n with
  | zero =>
    have hone : (1.0 : ℚ) = 1 := by norm_num
    refine ⟨?_,rfl⟩
    change (Dispatcher.start gen clock).bucket = _
    rw [Dispatcher.start,hone]
    rfl
  | succ n ih =>
    obtain ⟨hbucket,hclock⟩ := ih fun i hi => h i (by omega)
    have hhead : (dispatchAfter rng c gen clock n).clock.head = clock.get (n+2) := by
      rw [hclock,Stream'.head_drop]
    have hbefore :
        beforeDeadline (clock.head+c.duration) (dispatchAfter rng c gen clock n) = true := by
      have hlt := h n (by omega)
      simpa [beforeDeadline,hhead] using hlt
    rw [dispatchAfter_succ,if_pos hbefore,dispatchRound_bucket,hbucket,hhead]
    refine ⟨rfl,?_⟩
    rw [(dispatchRound_clock _ _ _).1,hclock,Stream'.tail_drop']

/-- A clock read after an interval, and then in turn after the part of one that
leaves less than a token, and after a whole one. -/
def laggingClock (rate : ℚ) : Stream' ℚ
  | 0 => 0
  | 1 => 0
  | i+2 => (1+(i/2 : Nat)*(2-rate/2)+if i % 2 = 0 then 0 else 1-rate/2)/rate

theorem laggingClock_even (rate : ℚ) (j : Nat) :
    (laggingClock rate).get (2*j+2) = (1+j*(2-rate/2))/rate := by
  have hmod : 2*j % 2 = 0 := by omega
  have hdiv : 2*j/2 = j := by omega
  simp [Stream'.get,laggingClock,hmod,hdiv]

theorem laggingClock_odd (rate : ℚ) (j : Nat) :
    (laggingClock rate).get (2*j+3) = (1+j*(2-rate/2)+(1-rate/2))/rate := by
  have hmod : ¬ (2*j+1) % 2 = 0 := by omega
  have hdiv : (2*j+1)/2 = j := by omega
  change (1+((2*j+1)/2 : Nat)*(2-rate/2)+if (2*j+1) % 2 = 0 then 0 else 1-rate/2)/rate = _
  rw [if_neg hmod,hdiv]

theorem laggingClock_paced {rate : ℚ} (h₀ : 0 < rate) (h₂ : rate < 2) (duration : ℚ) :
    Paced rate duration (laggingClock rate) := by
  have hgap : ∀ k, 0 ≤ (laggingClock rate).get (k+2)-(laggingClock rate).get (k+1) ∧
      (laggingClock rate).get (k+2)-(laggingClock rate).get (k+1) ≤ 1/rate := by
    intro k
    obtain ⟨j,hj⟩ := Nat.even_or_odd' k
    rcases hj with rfl | rfl
    · cases j with
      | zero =>
        have hone : (laggingClock rate).get (2*0+1) = 0 := rfl
        rw [laggingClock_even,hone]
        constructor
        · simpa using h₀.le
        · simp
      | succ j =>
        have hodd := laggingClock_odd rate j
        have hstep : (laggingClock rate).get (2*(j+1)+2)-(laggingClock rate).get (2*(j+1)+1) =
            1/rate := by
          rw [laggingClock_even,show 2*(j+1)+1 = 2*j+3 by omega,hodd,← sub_div]
          congr 1
          push_cast
          ring
        rw [hstep]
        exact ⟨by positivity,le_rfl⟩
    · have hstep : (laggingClock rate).get (2*j+1+2)-(laggingClock rate).get (2*j+1+1) =
          (1-rate/2)/rate := by
        rw [show 2*j+1+2 = 2*j+3 by omega,show 2*j+1+1 = 2*j+2 by omega,laggingClock_odd,
          laggingClock_even,← sub_div]
        congr 1
        ring
      rw [hstep]
      constructor
      · exact div_nonneg (by linarith) h₀.le
      · exact div_le_div_of_nonneg_right (by linarith) h₀.le
  intro k _
  obtain ⟨hback,hone⟩ := hgap k
  exact ⟨sub_nonneg.mp hback,hone⟩

theorem laggingClock_lt {rate : ℚ} (h₀ : 0 < rate) {i n : Nat} (hi : i < n) :
    (laggingClock rate).get (i+2) < (n+2)/rate := by
  have hhalf : ((i/2 : Nat) : ℚ) * 2 ≤ n := by
    have hle : i/2*2 ≤ n := by omega
    exact_mod_cast hle
  have hpart : ((i/2 : Nat) : ℚ)*(2-rate/2) ≤ (i/2 : Nat)*2 :=
    mul_le_mul_of_nonneg_left (by linarith) (Nat.cast_nonneg _)
  have hlast : (if i % 2 = 0 then 0 else 1-rate/2) < 1 := by
    split_ifs
    · exact one_pos
    · linarith
  exact div_lt_div_of_pos_right (by linarith) h₀

theorem read_full {rate now : ℚ} {b : Bucket ℚ} (h₁ : 1 ≤ rate)
    (h : rate ≤ b.level+(now-b.last)*rate) :
    b.read rate rate now = ⟨rate-1,now,b.grants ++ [now]⟩ := by
  have hfill : b.refill rate rate now = rate := min_eq_right h
  simp [Bucket.read,hfill,h₁]

theorem read_short {rate now : ℚ} {b : Bucket ℚ} (h₁ : 1 ≤ rate)
    (h : b.level+(now-b.last)*rate < 1) :
    b.read rate rate now = ⟨b.level+(now-b.last)*rate,now,b.grants⟩ := by
  have hfill : b.refill rate rate now = b.level+(now-b.last)*rate := min_eq_left (by linarith)
  simp [Bucket.read,hfill,not_le.mpr h]

/-- A reading too early for a token, and one an interval later: the bucket runs
over. -/
theorem read_twice {rate s t : ℚ} {b : Bucket ℚ} (h₁ : 1 ≤ rate) (h₂ : rate < 2)
    (hlevel : b.level = rate-1) (hs : (s-b.last)*rate = 1-rate/2) (ht : (t-s)*rate = 1) :
    (b.read rate rate s).read rate rate t = ⟨rate-1,t,b.grants ++ [t]⟩ := by
  have hshort : b.level+(s-b.last)*rate = rate/2 := by
    rw [hlevel,hs]
    ring
  have hmid := read_short (b := b) h₁ (by rw [hshort]; linarith)
  rw [hshort] at hmid
  have hfull : rate ≤ rate/2+(t-s)*rate := by
    rw [ht]
    linarith
  rw [hmid]
  exact read_full h₁ hfull

theorem laggingClock_bucket {rate : ℚ} (h₁ : 1 ≤ rate) (h₂ : rate < 2) (j : Nat) :
    let b := bucketAfter rate (laggingClock rate) (2*j+1)
    b.level = rate-1 ∧ b.last = (laggingClock rate).get (2*j+2) ∧ b.grants.length = j+1 := by
  have hne : rate ≠ 0 := by linarith
  induction j with
  | zero =>
    have hfull : rate ≤ 1+((laggingClock rate).get 2-0)*rate := by
      have hin : ((laggingClock rate).get 2-0)*rate = 1 := by
        rw [show (laggingClock rate).get 2 = _ from laggingClock_even rate 0]
        field_simp
        simp
      rw [hin]
      linarith
    have hfirst : bucketAfter rate (laggingClock rate) (2*0+1) =
        ⟨rate-1,(laggingClock rate).get 2,[] ++ [(laggingClock rate).get 2]⟩ :=
      read_full h₁ hfull
    rw [hfirst]
    exact ⟨rfl,rfl,rfl⟩
  | succ j ih =>
    obtain ⟨hlevel,hlast,hlen⟩ := ih
    have hearly : ((laggingClock rate).get (2*j+3)-
        (bucketAfter rate (laggingClock rate) (2*j+1)).last)*rate = 1-rate/2 := by
      rw [hlast,laggingClock_odd,laggingClock_even]
      field_simp
      ring
    have hlate : ((laggingClock rate).get (2*(j+1)+2)-(laggingClock rate).get (2*j+3))*rate =
        1 := by
      rw [laggingClock_even,laggingClock_odd]
      push_cast
      field_simp
      ring
    have hnext : bucketAfter rate (laggingClock rate) (2*(j+1)+1) =
        ((bucketAfter rate (laggingClock rate) (2*j+1)).read rate rate
          ((laggingClock rate).get (2*j+3))).read rate rate
            ((laggingClock rate).get (2*(j+1)+2)) := rfl
    rw [hnext,read_twice h₁ h₂ hlevel hearly hlate]
    refine ⟨rfl,rfl,?_⟩
    rw [List.length_append,hlen,List.length_singleton]

theorem laggingClock_run (rng : Generator G ℚ) (c : Campaign ℚ) (gen : G) (h₀ : 0 < c.rate)
    (n : Nat) :
    (dispatchAfter rng { c with duration := (n+2)/c.rate } gen (laggingClock c.rate) n).bucket =
      bucketAfter c.rate (laggingClock c.rate) n := by
  refine (dispatchAfter_bucket fun i hi => ?_).1
  have hstart : (laggingClock c.rate).get 0 = 0 := rfl
  rw [hstart,zero_add]
  exact laggingClock_lt h₀ hi

theorem KeepsRate.lagging (h : KeepsRate rng c gen) (h₀ : 0 < c.rate) (h₂ : c.rate < 2) (j : Nat) :
    (⌊c.rate*(laggingClock c.rate).get (2*j+2)⌋ : ℚ) ≤
      (bucketAfter c.rate (laggingClock c.rate) (2*j+1)).grants.length := by
  have hrun := laggingClock_run rng c gen h₀ (2*j+1)
  have hkeeps := (h (((2*j+1 : Nat)+2)/c.rate) _ (laggingClock_paced h₀ h₂ _) (2*j+1)).1
  have hlast : (bucketAfter c.rate (laggingClock c.rate) (2*j+1)).last =
    (laggingClock c.rate).get (2*j+2) := read_last
  have hone : (laggingClock c.rate).get 1 = 0 := rfl
  rw [← grants_length,hone,sub_zero] at hkeeps
  change (⌊c.rate*(Dispatcher.bucket _).last⌋ : ℚ) ≤ _ at hkeeps
  rwa [hrun,hlast] at hkeeps

theorem not_keepsRate_of_lt_one (h₀ : 0 < c.rate) (h₁ : c.rate < 1) : ¬ KeepsRate rng c gen := by
  intro h
  have hkeeps := h.lagging h₀ (by linarith) 0
  have hcap : (⟨1,0,[]⟩ : Bucket ℚ).refill c.rate c.rate ((laggingClock c.rate).get 2) ≤ c.rate :=
    refill_le_cap
  have hnone : (bucketAfter c.rate (laggingClock c.rate) (2*0+1)).grants = [] := by
    change ((⟨1,0,[]⟩ : Bucket ℚ).read c.rate c.rate ((laggingClock c.rate).get 2)).grants = []
    simp [Bucket.read,not_le.mpr (hcap.trans_lt h₁)]
  have hdue : c.rate*(laggingClock c.rate).get (2*0+2) = 1 := by
    rw [laggingClock_even]
    field_simp
    simp
  rw [hnone,hdue] at hkeeps
  norm_num at hkeeps

/-- What runs over adds up. -/
theorem not_keepsRate_of_lt_two (h₁ : 1 ≤ c.rate) (h₂ : c.rate < 2) : ¬ KeepsRate rng c gen := by
  intro h
  have h₀ : 0 < c.rate := by linarith
  have hlost : 0 < 1-c.rate/2 := by linarith
  obtain ⟨j,hj⟩ := exists_nat_gt (1/(1-c.rate/2))
  have hkeeps := h.lagging h₀ h₂ j
  have hdue : c.rate*(laggingClock c.rate).get (2*j+2) = 1+j*(2-c.rate/2) := by
    rw [laggingClock_even]
    field_simp
  have hover : 1 ≤ j*(1-c.rate/2) := ((div_lt_iff₀ hlost).mp hj).le
  have hfloor : ((j+2 : Nat) : ℤ) ≤ ⌊1+(j : ℚ)*(2-c.rate/2)⌋ := by
    rw [Int.le_floor]
    push_cast
    linarith
  have hcast : ((j+2 : Nat) : ℚ) ≤ (⌊1+(j : ℚ)*(2-c.rate/2)⌋ : ℚ) := by exact_mod_cast hfloor
  rw [(laggingClock_bucket h₁ h₂ j).2.2,hdue] at hkeeps
  push_cast at hkeeps hcast
  linarith

/-- The dispatcher keeps up with the rates from two requests a second on. -/
theorem rate_kept (rng : Generator G ℚ) (c : Campaign ℚ) (gen : G) (hr : 0 < c.rate) :
    KeepsRate rng c gen ↔ 2 ≤ c.rate := by
  constructor
  · intro h
    by_contra hless
    cases lt_or_ge c.rate 1 with
    | inl h₁ => exact not_keepsRate_of_lt_one hr h₁ h
    | inr h₁ => exact not_keepsRate_of_lt_two h₁ (not_le.mp hless) h
  · exact keepsRate_of_two_le

theorem rate_kept_hundred : KeepsRate counting { fourSeconds with rate := 100 } 0 :=
  (rate_kept counting { fourSeconds with rate := 100 } 0 (by norm_num)).mpr (by norm_num)

/-- At half a request a second nothing is ever sent. -/
theorem half_rate_silent :
    Paced (1/2) 8 (fun n => 2*(n : ℚ)) ∧
    (dispatchAfter counting { fourSeconds with rate := 1/2, duration := 8 } 0
      (fun n => 2*(n : ℚ)) 3).requests = [] ∧
    ¬ KeepsRate counting { fourSeconds with rate := 1/2 } 0 := by
  refine ⟨?_,by decide +kernel,not_keepsRate_of_lt_one (by norm_num) (by norm_num)⟩
  intro k _
  simp only [Stream'.get]
  constructor
  · push_cast
    linarith
  · push_cast
    linarith

end Rates

end ConcurrentWebServer.LoadClient
