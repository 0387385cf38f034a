import ConcurrentWebServer.BufferModel
import ConcurrentWebServer.CStrings
import ConcurrentWebServer.GetOpt
set_option autoImplicit false

/-!
wserver.c, how `main` reads its command line: what it starts the server with,
or what it says before it exits.
-/

namespace ConcurrentWebServer.Server
open CStrings GetOpt Queueing

def DEFAULT_PORT : Int := 10000

def DEFAULT_THREADS : Int := 4

def DEFAULT_BUF_SIZE : Int := 16

def DEFAULT_POLICY : SchedPolicy := .fifo

def defaultRoot : List UInt8 := ascii "."

structure Options where
  rootDir : List UInt8
  port : Int
  numThreads : Int
  bufSize : Int
  policy : SchedPolicy
  deriving DecidableEq

def Options.initial : Options :=
  ⟨defaultRoot,DEFAULT_PORT,DEFAULT_THREADS,DEFAULT_BUF_SIZE,DEFAULT_POLICY⟩

def isdigit (c : UInt8) : Bool := 48 ≤ c && c ≤ 57

def magnitude (s : List UInt8) : Nat :=
  (s.takeWhile isdigit).foldl (fun n c => 10*n + (c.toNat-48)) 0

/-- `strtol(s, NULL, 10)`, with a `long` of 64 bits. -/
def strtol (s : List UInt8) : Int :=
  match s.dropWhile isspace with
  | 45 :: s => max (-2^63) (-(magnitude s : Int))
  | 43 :: s => min (2^63-1) (magnitude s)
  | s => min (2^63-1) (magnitude s)

/-- `(int) strtol(s, NULL, 10)`, which is what glibc makes of it. -/
def atoi (s : List UInt8) : Int := (strtol s).bmod (2^32)

def optstring : List UInt8 := ascii "d:p:t:b:s:"

def usage : String :=
  "usage: wserver [-d basedir] [-p port] [-t threads] [-b bufsize] [-s fifo|sff]\n"

/-- The body of the `while` loop; what it prints before `exit(1)` is its error. -/
def Options.set (o : Options) (c : Found) : Except String Options :=
  let optarg := c.2.getD []
  if c.1 = 100 then .ok { o with rootDir := optarg }
  else if c.1 = 112 then .ok { o with port := atoi optarg }
  else if c.1 = 116 then
    if atoi optarg < 1 then .error "wserver: -t must be >= 1\n"
    else .ok { o with numThreads := atoi optarg }
  else if c.1 = 98 then
    if atoi optarg < 1 then .error "wserver: -b must be >= 1\n"
    else .ok { o with bufSize := atoi optarg }
  else if c.1 = 115 then
    if strcaseeq optarg (ascii "sff") then .ok { o with policy := .sff }
    else if strcaseeq optarg (ascii "fifo") then .ok { o with policy := .fifo }
    else .error "wserver: -s must be 'fifo' or 'sff'\n"
  else .error usage

def mainOptions (argv : List (List UInt8)) : Except String Options :=
  whileGetopt optstring Options.set ⟨[],argv⟩ .initial

section Meaning

def argsOf (os : List Found) (c : UInt8) : List (List UInt8) :=
  (os.filter fun f => f.1 == c).map fun f => f.2.getD []

def policyNamed (s : List UInt8) : SchedPolicy := if strcaseeq s (ascii "sff") then .sff else .fifo

structure Options.Follows (o : Options) (os : List Found) : Prop where
  rootDir : o.rootDir = (argsOf os 100).getLast?.getD defaultRoot
  port : o.port = ((argsOf os 112).getLast?.map atoi).getD DEFAULT_PORT
  numThreads : o.numThreads = ((argsOf os 116).getLast?.map atoi).getD DEFAULT_THREADS
  bufSize : o.bufSize = ((argsOf os 98).getLast?.map atoi).getD DEFAULT_BUF_SIZE
  policy : o.policy = ((argsOf os 115).getLast?.map policyNamed).getD DEFAULT_POLICY

def complaint (c : Found) : Option String :=
  if c.1 = 100 ∨ c.1 = 112 then none
  else if c.1 = 116 then
    if 1 ≤ atoi (c.2.getD []) then none else some "wserver: -t must be >= 1\n"
  else if c.1 = 98 then
    if 1 ≤ atoi (c.2.getD []) then none else some "wserver: -b must be >= 1\n"
  else if c.1 = 115 then
    if strcaseeq (c.2.getD []) (ascii "sff") ∨ strcaseeq (c.2.getD []) (ascii "fifo") then none
    else some "wserver: -s must be 'fifo' or 'sff'\n"
  else some usage

def INT_MAX : Int := 2^31-1

structure Options.Valid (o : Options) : Prop where
  port : -INT_MAX-1 ≤ o.port ∧ o.port ≤ INT_MAX
  numThreads : 1 ≤ o.numThreads ∧ o.numThreads ≤ INT_MAX
  bufSize : 1 ≤ o.bufSize ∧ o.bufSize ≤ INT_MAX

inductive Startup (os : List Found) : Except String Options → Prop where
  | exits {pre post : List Found} {c : Found} {message : String} :
      os = pre ++ c :: post → (∀ c ∈ pre, complaint c = none) → complaint c = some message →
      Startup os (.error message)
  | starts {o : Options} :
      (∀ c ∈ os, complaint c = none) → o.Follows os → o.Valid → Startup os (.ok o)

end Meaning

section Loop

variable {os : List Found} {o o' : Options} {c : Found}

theorem atoi_range (s : List UInt8) : -INT_MAX-1 ≤ atoi s ∧ atoi s ≤ INT_MAX := by
  have hlow := Int.le_bmod (x := strtol s) (m := 2^32) (by decide)
  have hhigh := Int.bmod_lt (x := strtol s) (m := 2^32) (by decide)
  unfold atoi INT_MAX
  omega

theorem set_complaint {message : String} (h : complaint c = some message) :
    o.set c = .error message := by
  unfold complaint at h
  unfold Options.set
  grind

theorem argsOf_append (os : List Found) (c : Found) (x : UInt8) :
    argsOf (os ++ [c]) x = if c.1 = x then argsOf os x ++ [c.2.getD []] else argsOf os x := by
  by_cases hx : c.1 = x <;> simp [argsOf,hx]

theorem follows_initial : Options.initial.Follows [] := ⟨rfl,rfl,rfl,rfl,rfl⟩

theorem valid_initial : Options.initial.Valid := by
  constructor <;> decide

theorem set_follows (hf : o.Follows os) (hv : o.Valid) (hc : complaint c = none) :
    ∃ o', o.set c = .ok o' ∧ o'.Follows (os ++ [c]) ∧ o'.Valid := by
  obtain ⟨hdir,hport,hthreads,hsize,hpolicy⟩ := hf
  have hatoi := atoi_range (c.2.getD [])
  unfold complaint at hc
  unfold Options.set
  by_cases hd : c.1 = 100
  · refine ⟨_,if_pos hd,⟨?_,?_,?_,?_,?_⟩,hv.port,hv.numThreads,hv.bufSize⟩ <;>
      simp_all [argsOf_append]
  by_cases hp : c.1 = 112
  · refine ⟨{ o with port := atoi (c.2.getD []) },by simp [hp],⟨?_,?_,?_,?_,?_⟩,hatoi,
      hv.numThreads,hv.bufSize⟩ <;> simp_all [argsOf_append]
  by_cases ht : c.1 = 116
  · have hone : 1 ≤ atoi (c.2.getD []) := by simpa [ht] using hc
    refine ⟨{ o with numThreads := atoi (c.2.getD []) },?_,⟨?_,?_,?_,?_,?_⟩,hv.port,
      ⟨hone,hatoi.2⟩,hv.bufSize⟩
    · simp [ht,Int.not_lt.mpr hone]
    all_goals simp_all [argsOf_append]
  by_cases hb : c.1 = 98
  · have hone : 1 ≤ atoi (c.2.getD []) := by simpa [hb] using hc
    refine ⟨{ o with bufSize := atoi (c.2.getD []) },?_,⟨?_,?_,?_,?_,?_⟩,hv.port,
      hv.numThreads,hone,hatoi.2⟩
    · simp [hb,Int.not_lt.mpr hone]
    all_goals simp_all [argsOf_append]
  have hs : c.1 = 115 := by
    by_contra hs
    simp [hd,hp,ht,hb,hs] at hc
  refine ⟨{ o with policy := policyNamed (c.2.getD []) },?_,⟨?_,?_,?_,?_,?_⟩,hv.port,
    hv.numThreads,hv.bufSize⟩
  · unfold policyNamed
    cases hsff : strcaseeq (c.2.getD []) (ascii "sff") with
    | true => simp [hs,hsff]
    | false =>
      have hfifo : strcaseeq (c.2.getD []) (ascii "fifo") = true := by simpa [hs,hsff] using hc
      simp [hs,hsff,hfifo]
  all_goals simp_all [argsOf_append]

theorem startup_fold (rest : List Found) (hf : o.Follows os) (hv : o.Valid)
    (hos : ∀ c ∈ os, complaint c = none) : Startup (os ++ rest) (rest.foldlM Options.set o) := by
  induction rest generalizing os o with
  | nil =>
    rw [List.append_nil]
    exact .starts hos hf hv
  | cons c rest ih =>
    rw [List.foldlM_cons]
    cases hc : complaint c with
    | some message =>
      rw [set_complaint hc]
      exact .exits rfl hos hc
    | none =>
      obtain ⟨o',hset,hf',hv'⟩ := set_follows hf hv hc
      rw [hset,List.append_cons]
      refine ih hf' hv' fun c' hc' => ?_
      cases List.mem_append.mp hc' with
      | inl h => exact hos c' h
      | inr h => rwa [List.mem_singleton.mp h]

theorem startup (argv : List (List UInt8)) :
    Startup (getopts optstring ⟨[],argv⟩) (mainOptions argv) := by
  rw [mainOptions,whileGetopt_eq]
  exact startup_fold _ follows_initial valid_initial (by simp)

end Loop

section Numerals

theorem magnitude_decimal (n : Nat) : magnitude (ascii (toString n)) = n := by
  have hall : ∀ c ∈ ascii (toString n), isdigit c = true := by
    intro c hc
    obtain ⟨hlow,hhigh⟩ := ascii_digit hc
    simp [isdigit,hlow,hhigh]
  have hfold : (Nat.toDigits 10 n).foldl (fun m c => 10*m + (c.toNat.toUInt8.toNat-48)) 0 =
      (Nat.toDigits 10 n).foldl (fun m c => 10*m + (c.toNat - '0'.toNat)) 0 :=
    List.foldl_ext _ _ _ fun m c hc => by rw [digit_toUInt8 hc]; rfl
  rw [magnitude,List.takeWhile_eq_self_iff.mpr hall,ascii,List.foldl_map,
    Nat.toString_eq_repr,Nat.toList_repr,hfold,← Nat.ofDigitChars_eq_foldl]
  exact Nat.ofDigitChars_ten_toDigits

theorem strtol_digits {c : UInt8} {s : List UInt8} (hc : 48 ≤ c) :
    strtol (c :: s) = min (2^63-1) (magnitude (c :: s) : Int) := by
  have hspace : (c :: s).dropWhile isspace = c :: s :=
    List.dropWhile_cons_of_neg (by simp [isspace_digit hc])
  rw [strtol,hspace]
  split
  · rename_i h
    obtain ⟨rfl,_⟩ := List.cons.inj h
    exact absurd hc (by decide)
  · rename_i h
    obtain ⟨rfl,_⟩ := List.cons.inj h
    exact absurd hc (by decide)
  · rfl

theorem atoi_nat {n : Nat} (h : (n : Int) ≤ INT_MAX) : atoi (ascii (toString n)) = n := by
  have hm := magnitude_decimal n
  unfold INT_MAX at h
  cases hd : ascii (toString n) with
  | nil =>
    rw [hd] at hm
    rw [← hm]
    rfl
  | cons c s =>
    have hc : 48 ≤ c := (ascii_digit (n := n) (hd ▸ List.mem_cons_self)).1
    rw [hd] at hm
    rw [atoi,strtol_digits hc,hm,min_eq_right (by omega),Int.bmod_eq_of_le (by omega) (by omega)]

theorem atoi_neg {n : Nat} (h : -INT_MAX-1 ≤ -(n : Int)) :
    atoi (ascii ("-" ++ toString n)) = -n := by
  unfold INT_MAX at h
  have hs : strtol (ascii ("-" ++ toString n)) = max (-2^63) (-(n : Int)) := by
    have hsign : ascii ("-" ++ toString n) = 45 :: ascii (toString n) := by
      rw [ascii,String.toList_append,List.map_append]
      rfl
    have hspace : (45 :: ascii (toString n)).dropWhile isspace = 45 :: ascii (toString n) :=
      List.dropWhile_cons_of_neg (by decide)
    rw [strtol,hsign,hspace]
    exact congrArg (fun m : Nat => max (-2^63) (-(m : Int))) (magnitude_decimal n)
  rw [atoi,hs,max_eq_right (by omega),Int.bmod_eq_of_le (by omega) (by omega)]

theorem atoi_decimal {i : Int} (hlow : -INT_MAX-1 ≤ i) (hhigh : i ≤ INT_MAX) :
    atoi (ascii (toString i)) = i := by
  cases i with
  | ofNat n => exact atoi_nat hhigh
  | negSucc n => exact atoi_neg hlow

end Numerals

section Words

def allWords (d p t b s : List UInt8) : List (List UInt8) :=
  [ascii "-d",d,ascii "-p",p,ascii "-t",t,ascii "-b",b,ascii "-s",s]

theorem spelled_cons {os : List Found} {args : List (List UInt8)} {c : UInt8} (a : List UInt8)
    (hw : wants optstring c = some true) (hc : c ≠ 45) (h : Spelled optstring os ⟨[],args⟩) :
    Spelled optstring ((c,some a) :: os) ⟨[],[45,c] :: a :: args⟩ :=
  .enter (fun hend => hc hend.1) (.separate hw h)

theorem allWords_spelled (d p t b s : List UInt8) :
    Spelled optstring [(100,some d),(112,some p),(116,some t),(98,some b),(115,some s)]
      ⟨[],allWords d p t b s⟩ := by
  have hs := spelled_cons (c := 115) s (by decide) (by decide) .nil
  have hb := spelled_cons (c := 98) b (by decide) (by decide) hs
  have ht := spelled_cons (c := 116) t (by decide) (by decide) hb
  have hp := spelled_cons (c := 112) p (by decide) (by decide) ht
  exact spelled_cons d (by decide) (by decide) hp

theorem allWords_read (d p : List UInt8) {t b s : List UInt8} (ht : 1 ≤ atoi t) (hb : 1 ≤ atoi b)
    (hs : strcaseeq s (ascii "sff") ∨ strcaseeq s (ascii "fifo")) :
    mainOptions (allWords d p t b s) = .ok ⟨d,atoi p,atoi t,atoi b,policyNamed s⟩ := by
  have hout := startup (allWords d p t b s)
  rw [(allWords_spelled d p t b s).found] at hout
  generalize mainOptions (allWords d p t b s) = r at hout
  cases hout with
  | @exits pre post c message hos _ hc =>
    have hmem : c ∈ pre ++ c :: post := by simp
    rw [← hos] at hmem
    have hgood : complaint c = none := by
      simp only [List.mem_cons,List.not_mem_nil,or_false] at hmem
      rcases hmem with rfl | rfl | rfl | rfl | rfl <;> simp [complaint,ht,hb,hs]
    rw [hgood] at hc
    cases hc
  | @starts o _ hf _ =>
    obtain ⟨hdir,hport,hthreads,hsize,hpolicy⟩ := hf
    cases o
    simp_all [argsOf]

def policyName : SchedPolicy → List UInt8
  | .fifo => ascii "fifo"
  | .sff => ascii "sff"

def Options.words (o : Options) : List (List UInt8) :=
  allWords o.rootDir (ascii (toString o.port)) (ascii (toString o.numThreads))
    (ascii (toString o.bufSize)) (policyName o.policy)

theorem words_read {o : Options} (hv : o.Valid) : mainOptions o.words = .ok o := by
  obtain ⟨⟨hpl,hph⟩,⟨htl,hth⟩,hbl,hbh⟩ := hv
  have hmin : -INT_MAX-1 ≤ 1 := by decide
  have hport := atoi_decimal hpl hph
  have hthreads := atoi_decimal (hmin.trans htl) hth
  have hsize := atoi_decimal (hmin.trans hbl) hbh
  have hname : strcaseeq (policyName o.policy) (ascii "sff") ∨
      strcaseeq (policyName o.policy) (ascii "fifo") := by
    cases o.policy <;> decide
  have hpolicy : policyNamed (policyName o.policy) = o.policy := by
    cases o.policy <;> decide
  rw [Options.words,allWords_read _ _ (by rwa [hthreads]) (by rwa [hsize]) hname,hport,hthreads,
    hsize,hpolicy]

/-- Whatever is on the command line, `main` takes its options from it by the
grammar of `getopt` and the last one of a kind counts, or it exits with the
complaint about the first one it cannot take; and each configuration can be
written as a command line. -/
theorem command_line :
    (∀ argv, ∃ os, Spelled optstring os ⟨[],argv⟩ ∧ Startup os (mainOptions argv) ∧
      ∀ os', Spelled optstring os' ⟨[],argv⟩ → os' = os) ∧
    ∀ o : Options, o.Valid → mainOptions o.words = .ok o := by
  constructor
  · intro argv
    refine ⟨getopts optstring ⟨[],argv⟩,spelled _,startup argv,fun os' h => ?_⟩
    exact h.found.symm
  · intro o hv
    exact words_read hv

end Words

end ConcurrentWebServer.Server
