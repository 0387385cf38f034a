import ConcurrentWebServer.DecimalRounding
import ConcurrentWebServer.LatencyPercentiles
import ConcurrentWebServer.LoadPhase
import Mathlib.Algebra.BigOperators.Group.List.Basic
import Mathlib.Algebra.Order.Field.Rat
import Mathlib.Tactic.FieldSimp
set_option autoImplicit false

/-! The summary that `main` of load_client.py computes from the rows, over exact
rationals. -/

namespace ConcurrentWebServer.LoadClient
open Execution Polling

section Model

def pyRound (x : ℚ) (ndigits : Nat) : ℚ := DecimalRounding.places x ndigits

def safeMean (data : List ℚ) : Option ℚ := if data = [] then none else some (data.sum/data.length)

/-- `root` is `x ** 0.5`. -/
def coeffVariation (root : ℚ → ℚ) (data : List ℚ) : Option ℚ :=
  if data.length < 2 then none
  else
    let mean : ℚ := data.sum/data.length
    if mean = 0 then none
    else
      let variance : ℚ := (data.map fun x => (x-mean)^2).sum/(data.length-1)
      some (root variance/mean)

structure Stats where
  nTotal : Nat
  nSmall : Nat
  nLarge : Nat
  nErrors : Nat
  meanMs : Option ℚ
  p50Ms : Option ℚ
  p95Ms : Option ℚ
  p99Ms : Option ℚ
  meanMsSmall : Option ℚ
  p95MsSmall : Option ℚ
  p99MsSmall : Option ℚ
  meanMsLarge : Option ℚ
  p95MsLarge : Option ℚ
  p99MsLarge : Option ℚ
  throughputRps : ℚ
  fairnessCv : Option ℚ
  deriving DecidableEq

def latencies (rows : List (Row ℚ)) (ftype : Option FileType) : List ℚ :=
  (rows.filter fun r => 0 ≤ r.lat && (ftype.isNone || ftype == some r.ftype)).map Row.lat

def summarize (root : ℚ → ℚ) (wallSecs : ℚ) (rows : List (Row ℚ)) : Exec Stats := do
  let allLat := latencies rows none
  let smallLat := latencies rows (some .small)
  let largeLat := latencies rows (some .large)
  let nErrors := rows.countP fun r => r.lat < 0 || r.status != 200
  let nTotal := rows.length
  let nSmall := (rows.filter fun r => r.ftype == .small).length
  let nLarge := (rows.filter fun r => r.ftype == .large).length
  let throughput : ℚ := if 0 < wallSecs then (nTotal-nErrors)/wallSecs else 0
  let rounded (x : Option ℚ) := x.map fun x => pyRound x 3
  let p50 ← percentile allLat 50
  let p95 ← percentile allLat 95
  let p99 ← percentile allLat 99
  let p95Small ← percentile smallLat 95
  let p99Small ← percentile smallLat 99
  let p95Large ← percentile largeLat 95
  let p99Large ← percentile largeLat 99
  pure
    { nTotal, nSmall, nLarge, nErrors
      meanMs := rounded (safeMean allLat)
      p50Ms := rounded p50
      p95Ms := rounded p95
      p99Ms := rounded p99
      meanMsSmall := rounded (safeMean smallLat)
      p95MsSmall := rounded p95Small
      p99MsSmall := rounded p99Small
      meanMsLarge := rounded (safeMean largeLat)
      p95MsLarge := rounded p95Large
      p99MsLarge := rounded p99Large
      throughputRps := pyRound throughput 3
      fairnessCv := if allLat = [] then none
        else (coeffVariation root allLat).map fun x => pyRound x 5 }

end Model

section Order

variable {root : ℚ → ℚ} {data data' : List ℚ} {rows rows' : List (Row ℚ)}

theorem safeMean_perm (h : data.Perm data') : safeMean data = safeMean data' := by
  have hnil : data = [] ↔ data' = [] := by
    rw [← List.length_eq_zero_iff,h.length_eq,List.length_eq_zero_iff]
  simp only [safeMean,hnil,h.sum_eq,h.length_eq]

theorem coeffVariation_perm (h : data.Perm data') :
    coeffVariation root data = coeffVariation root data' := by
  have hsquares : ∀ m : ℚ, (data.map fun x => (x-m)^2).sum = (data'.map fun x => (x-m)^2).sum :=
    fun m => (h.map _).sum_eq
  simp only [coeffVariation,hsquares,h.sum_eq,h.length_eq]

theorem latencies_perm (h : rows.Perm rows') (ftype : Option FileType) :
    (latencies rows ftype).Perm (latencies rows' ftype) := (h.filter _).map _

theorem summarize_perm (wallSecs : ℚ) (h : rows.Perm rows') :
    summarize root wallSecs rows = summarize root wallSecs rows' := by
  have hlat := fun ftype => latencies_perm h ftype
  have hnil : latencies rows none = [] ↔ latencies rows' none = [] := by
    rw [← List.length_eq_zero_iff,(hlat none).length_eq,List.length_eq_zero_iff]
  simp only [summarize,fun ftype p => percentile_perm (hlat ftype) p,
    fun ftype => safeMean_perm (hlat ftype),coeffVariation_perm (hlat none),hnil,h.length_eq,
    h.countP_eq,(h.filter _).length_eq]

end Order

section Accounts

variable {root : ℚ → ℚ} {rows : List (Row ℚ)}

/-- No latency is lost between the two types. -/
theorem latencies_split (rows : List (Row ℚ)) :
    (latencies rows none).length =
        (latencies rows (some .small)).length + (latencies rows (some .large)).length ∧
      (latencies rows none).sum =
        (latencies rows (some .small)).sum + (latencies rows (some .large)).sum := by
  induction rows with
  | nil => simp [latencies]
  | cons r rows ih =>
    obtain ⟨hlen,hsum⟩ := ih
    by_cases hlat : 0 ≤ r.lat
    · cases hf : r.ftype with
      | small =>
        simp [latencies,hlat,hf] at hlen hsum ⊢
        constructor
        · omega
        · rw [hsum,add_assoc]
      | large =>
        simp [latencies,hlat,hf] at hlen hsum ⊢
        constructor
        · omega
        · rw [hsum]
          ring
    · simp only [latencies,hlat,List.filter_cons,decide_false,Bool.false_and,Bool.false_eq_true,
        if_false]
      exact ⟨hlen,hsum⟩

theorem types_split (rows : List (Row ℚ)) :
    (rows.filter fun r => r.ftype == .small).length +
      (rows.filter fun r => r.ftype == .large).length = rows.length := by
  induction rows with
  | nil => rfl
  | cons r rows ih =>
    cases hf : r.ftype <;> simp [hf] <;> omega

def percentileOf (data : List ℚ) (p : ℚ) : Option ℚ :=
  if data = [] then none else some (quantile data p)

theorem percentile_total (data : List ℚ) {p : ℚ} (h₀ : 0 ≤ p) (h₁ : p ≤ 100) :
    percentile data p = .done (percentileOf data p) := by
  by_cases hne : data = []
  · simp [percentile,percentileOf,hne]
  · rw [percentile_done hne h₀ h₁,percentileOf,if_neg hne]

theorem percentileOf_mono (data : List ℚ) {p q : ℚ}
    (h₀ : 0 ≤ p) (hpq : p ≤ q) (h₁ : q ≤ 100) :
    ∀ a ∈ (percentileOf data p).map fun x => pyRound x 3,
      ∀ b ∈ (percentileOf data q).map fun x => pyRound x 3, a ≤ b := by
  intro a ha b hb
  by_cases hne : data = []
  · simp [percentileOf,hne] at ha
  · simp only [percentileOf,hne,if_false,Option.map_some,Option.mem_def,Option.some.injEq] at ha hb
    subst ha hb
    exact DecimalRounding.places_mono 3 (quantile_mono hne h₀ hpq h₁)

theorem pyRound_close (x : ℚ) : |pyRound x 3-x| ≤ 1/2000 :=
  (DecimalRounding.abs_places_sub x 3).trans_eq (by norm_num)

theorem mean_total (data : List ℚ) :
    |((safeMean data).map fun x => pyRound x 3).getD 0*data.length-data.sum| ≤
      data.length/2000 := by
  by_cases hne : data = []
  · simp [safeMean,hne]
  · have hpos : (0 : ℚ) < data.length := by exact_mod_cast List.length_pos_iff.mpr hne
    have hmean := pyRound_close (data.sum/data.length)
    simp only [safeMean,hne,if_false,Option.map_some,Option.getD_some]
    have hfactor : pyRound (data.sum/data.length) 3*data.length-data.sum =
        (pyRound (data.sum/data.length) 3-data.sum/data.length)*data.length := by
      field_simp
    have hbound := mul_le_mul_of_nonneg_right hmean hpos.le
    rw [hfactor,abs_mul,abs_of_pos hpos]
    linarith

end Accounts

section Columns

/-- The columns of a summary fit together: the counts, the means up to their
rounding, and the percentiles. -/
structure Stats.Consistent (st : Stats) (wallSecs : ℚ) (rows : List (Row ℚ)) : Prop where
  total : st.nTotal = rows.length
  types : st.nSmall+st.nLarge = st.nTotal
  errors : st.nErrors+(rows.countP fun r => 0 ≤ r.lat && r.status == 200) = st.nTotal
  mean : |st.meanMs.getD 0*(latencies rows none).length-
      (st.meanMsSmall.getD 0*(latencies rows (some .small)).length+
        st.meanMsLarge.getD 0*(latencies rows (some .large)).length)| ≤
    (latencies rows none).length/1000
  order : (∀ a ∈ st.p50Ms, ∀ b ∈ st.p95Ms, a ≤ b) ∧ (∀ a ∈ st.p95Ms, ∀ b ∈ st.p99Ms, a ≤ b) ∧
    (∀ a ∈ st.p95MsSmall, ∀ b ∈ st.p99MsSmall, a ≤ b) ∧
    ∀ a ∈ st.p95MsLarge, ∀ b ∈ st.p99MsLarge, a ≤ b
  throughput : 0 < wallSecs →
    |st.throughputRps*wallSecs-(rows.countP fun r => 0 ≤ r.lat && r.status == 200)| ≤
      wallSecs/2000

variable {root : ℚ → ℚ}

theorem errors_split (rows : List (Row ℚ)) :
    (rows.countP fun r => r.lat < 0 || r.status != 200) +
      (rows.countP fun r => 0 ≤ r.lat && r.status == 200) = rows.length := by
  have hnot : (fun r : Row ℚ => 0 ≤ r.lat && r.status == 200) =
      fun r => decide ¬(decide (r.lat < 0) || r.status != 200) = true := by
    funext r
    have hstatus : (r.status == 200) = decide (r.status = 200) := rfl
    simp [← not_lt,hstatus]
  rw [hnot]
  exact (List.length_eq_countP_add_countP _).symm

theorem summarize_consistent (root : ℚ → ℚ) (wallSecs : ℚ) (rows : List (Row ℚ)) :
    ∃ st, summarize root wallSecs rows = .done st ∧ st.Consistent wallSecs rows ∧
      st.nSmall = (rows.filter fun r => r.ftype == .small).length := by
  have hp : ∀ data : List ℚ, percentile data 50 = .done (percentileOf data 50) ∧
      percentile data 95 = .done (percentileOf data 95) ∧
      percentile data 99 = .done (percentileOf data 99) := by
    intro data
    exact ⟨percentile_total data (by norm_num) (by norm_num),
      percentile_total data (by norm_num) (by norm_num),
      percentile_total data (by norm_num) (by norm_num)⟩
  refine ⟨_,by simp only [summarize,fun data => (hp data).1,fun data => (hp data).2.1,
    fun data => (hp data).2.2,done_bind,pure_eq]; rfl,?_,rfl⟩
  have herrors := errors_split rows
  have hcount : (rows.countP fun r => decide (r.lat < 0) || r.status != 200 : ℚ) +
      (rows.countP fun r => decide (0 ≤ r.lat) && r.status == 200) = rows.length := by
    exact_mod_cast herrors
  refine ⟨rfl,types_split rows,herrors,?_,⟨?_,?_,?_,?_⟩,fun hwall => ?_⟩
  · have hall := abs_le.mp (mean_total (latencies rows none))
    have hsmall := abs_le.mp (mean_total (latencies rows (some .small)))
    have hlarge := abs_le.mp (mean_total (latencies rows (some .large)))
    obtain ⟨hlen,hsum⟩ := latencies_split rows
    have hlen' : ((latencies rows none).length : ℚ) = (latencies rows (some .small)).length +
        (latencies rows (some .large)).length := by exact_mod_cast hlen
    rw [abs_le]
    constructor <;> linarith
  · exact percentileOf_mono _ (by norm_num) (by norm_num) (by norm_num)
  · exact percentileOf_mono _ (by norm_num) (by norm_num) (by norm_num)
  · exact percentileOf_mono _ (by norm_num) (by norm_num) (by norm_num)
  · exact percentileOf_mono _ (by norm_num) (by norm_num) (by norm_num)
  · simp only [if_pos hwall]
    have hround := mul_le_mul_of_nonneg_right
      (pyRound_close
        (((rows.length : ℚ)-rows.countP fun r => decide (r.lat < 0) || r.status != 200)/wallSecs))
      hwall.le
    have hok : ((rows.length : ℚ)-rows.countP fun r => decide (r.lat < 0) || r.status != 200) =
        rows.countP fun r => decide (0 ≤ r.lat) && r.status == 200 := by linarith
    rw [hok] at hround ⊢
    have hfactor : ∀ x y : ℚ, x*wallSecs-y = (x-y/wallSecs)*wallSecs := by
      intro x y
      field_simp
    rw [hfactor,abs_mul,abs_of_pos hwall]
    linarith

end Columns

section Phases

variable {W : Type} [DecidableEq W] [Fintype W] {root : ℚ → ℚ} {maxsize : Nat}
  {s : LoadPhase ℚ W}

/-- After a load phase the summary counts each request that was put once, under
its type, does not depend on the order of the rows, and its columns agree. -/
theorem summary_accounts (h : LoadReaches maxsize (.start _ _ _) s)
    (hj : s.main = .joined) (wallSecs : ℚ) :
    ∃ st, (∀ rows, s.rows.Perm rows → summarize root wallSecs rows = .done st) ∧
      st.Consistent wallSecs s.rows ∧ st.nTotal = s.dispatched.length ∧
      st.nSmall = (s.dispatched.filter fun task => task.ftype == .small).length := by
  have hk := runs_kept answers_request h
  have hrows := Multiset.coe_eq_coe.mp (hk.all_rows (hk.done hj))
  obtain ⟨st,hst,hcons,hsmall⟩ := summarize_consistent root wallSecs s.rows
  refine ⟨st,fun rows hp => ?_,hcons,?_,?_⟩
  · rw [← summarize_perm wallSecs hp,hst]
  · have hlen := hrows.length_eq
    rw [List.length_map,List.length_map] at hlen
    rw [hcons.total,hlen]
  · have hcount := hrows.countP_eq (fun request => request.2 == FileType.small)
    rw [List.countP_map,List.countP_map,List.countP_eq_length_filter,
      List.countP_eq_length_filter] at hcount
    rw [hsmall]
    exact hcount

theorem summary_accounts_failing : ∃ st : Stats, st.nTotal = 1 ∧ st.nSmall = 1 ∧
    st.nErrors = 1 := by
  obtain ⟨s,hrun,hj,hrows,hput⟩ : ∃ s : LoadPhase ℚ Unit, LoadReaches 3 (.start _ _ _) s ∧
      s.main = .joined ∧ s.rows = [workerRow someTask 1 none] ∧ s.dispatched = [someTask] :=
    ⟨_,((((((Relation.ReflTransGen.refl).tail
      ⟨.other,.put someTask rfl (by decide),trivial⟩).tail
      ⟨.other,.get () rfl rfl,trivial⟩).tail ⟨.set,.set rfl,trivial⟩).tail
      ⟨.other,.append () (workerRow someTask 1 none) rfl ⟨1,none,rfl⟩,trivial⟩).tail
      ⟨.other,.taskDone () rfl rfl,trivial⟩).tail ⟨.other,.join rfl rfl,trivial⟩,rfl,rfl,rfl⟩
  obtain ⟨st,_,hcons,htotal,hsmall⟩ := @summary_accounts _ _ _ id _ _ hrun hj 60
  rw [hput] at htotal hsmall
  have herrors := hcons.errors
  rw [hrows,htotal] at herrors
  exact ⟨st,htotal,hsmall,by simpa [workerRow] using herrors⟩

end Phases

end ConcurrentWebServer.LoadClient
