import ConcurrentWebServer.AnalysisModel
import Mathlib.Algebra.Order.Ring.Unbundled.Rat
import Mathlib.Data.List.Sort
import Mathlib.Tactic.Linarith
set_option autoImplicit false

/-! The policy that the report names as the winner. -/

namespace ConcurrentWebServer.Analysis

def verdictLine (winner direction pct : String) : String :=
  ("    ✓ " ++ winner ++ " has significantly " ++ direction) ++ (" (" ++ pct ++ "%)")

section Policies

variable {F : Type} [LinearOrder F]

def loser (winner : String) : String := if winner = "FIFO" then "SFF" else "FIFO"

/-- A latency is the better the lower it is, a throughput the higher it is. -/
def betterPolicy (metric : String) (fifoMedian sffMedian : F) : String :=
  if metric = "mean_ms" then if fifoMedian < sffMedian then "FIFO" else "SFF"
  else if sffMedian < fifoMedian then "FIFO" else "SFF"

def directionWords (metric : String) : String :=
  if metric = "mean_ms" then "LOWER latency" else "HIGHER throughput"

theorem betterPolicy_swap (metric : String) {a b : F} (h : a ≠ b) :
    betterPolicy metric b a = loser (betterPolicy metric a b) := by
  unfold betterPolicy
  rcases lt_or_gt_of_ne h with h | h
  · split_ifs <;> simp_all [loser,h.le.not_gt]
  · split_ifs <;> simp_all [loser,h.le.not_gt]

theorem betterPolicy_throughput (a b : F) :
    betterPolicy "throughput_rps" a b = if b < a then "FIFO" else "SFF" :=
  if_neg (by decide)

theorem betterPolicy_cases (metric : String) (a b : F) :
    betterPolicy metric a b = "FIFO" ∨ betterPolicy metric a b = "SFF" := by
  unfold betterPolicy
  split_ifs <;> simp

end Policies

section Lines

theorem toList_prefix {a b s t : String} (h : a ++ s = b ++ t) :
    a.toList <+: b.toList ∨ b.toList <+: a.toList := by
  have hlist := congrArg String.toList h
  rw [String.toList_append,String.toList_append] at hlist
  exact List.prefix_or_prefix_of_prefix (List.prefix_append a.toList s.toList)
    (hlist ▸ List.prefix_append b.toList t.toList)

theorem verdictLine_ne {w w' : String} (hw : w = "FIFO" ∨ w = "SFF")
    (hw' : w' = "FIFO" ∨ w' = "SFF") (t t' : String) :
    verdictLine w "HIGHER throughput" t ≠ verdictLine w' "LOWER latency" t' := by
  intro h
  have hprefix := toList_prefix h
  rcases hw with rfl | rfl <;> rcases hw' with rfl | rfl <;> exact absurd hprefix (by decide)

end Lines

section Report

variable {F : Type} [LinearOrder F] [Neg F] [Sub F] [Mul F] [Div F] [NatCast F] [OfScientific F]

def Reports (P : Packages F) (scDf : DataFrame F) (m : String × String)
    (winner direction : String) : Prop :=
  ∃ pct, (metricReport P scDf m.1 m.2).getLast? = some (verdictLine winner direction pct)

structure Significant (P : Packages F) (scDf : DataFrame F) (metric : String) : Prop where
  column : metric ∈ scDf.columns
  fifo_ne : scDf.vals "fifo" metric ≠ []
  sff_ne : scDf.vals "sff" metric ≠ []
  pValue : (P.mannwhitneyu (scDf.vals "fifo" metric) (scDf.vals "sff" metric)).2 < ALPHA
  medians : P.median (scDf.vals "fifo" metric) ≠ P.median (scDf.vals "sff" metric)

/-- The better policy is reported as what it is, and if its values were those
of the other one, the other one would be. -/
def ReportsBetter (P : Packages F) (scDf : DataFrame F) (m : String × String) : Prop :=
  let winner := betterPolicy m.1 (P.median (scDf.vals "fifo" m.1))
    (P.median (scDf.vals "sff" m.1))
  Reports P scDf m winner (directionWords m.1) ∧
  ∀ scDf', Significant P scDf' m.1 →
    scDf'.vals "fifo" m.1 = scDf.vals "sff" m.1 →
    scDf'.vals "sff" m.1 = scDf.vals "fifo" m.1 →
    Reports P scDf' m (loser winner) (directionWords m.1)

variable {P : Packages F} {scDf : DataFrame F}

theorem compareGroups_last {metric : String} (hname : metric ≠ "latency_ms")
    {fifoVals sffVals : List F} (hp : (P.mannwhitneyu fifoVals sffVals).2 < ALPHA) :
    ∃ pct, (compareGroups P metric fifoVals sffVals).getLast? =
      some (verdictLine (if P.median sffVals < P.median fifoVals then "FIFO" else "SFF")
        "HIGHER throughput" pct) := by
  have hbranch : (metric == "latency_ms") = false := beq_eq_false_iff_ne.mpr hname
  refine ⟨P.format ".1f" (pyAbs (P.median sffVals-P.median fifoVals)/
    min (P.median fifoVals) (P.median sffVals)*100.0),?_⟩
  simp only [compareGroups,hp,if_true,hbranch,Bool.false_eq_true,if_false,List.getLast?_cons_cons,
    List.getLast?_singleton,verdictLine,String.append_assoc]
  rfl

theorem compareGroups_suffix {metric : String} (mLabel : String)
    (h : Significant P scDf metric) :
    compareGroups P metric (scDf.vals "fifo" metric) (scDf.vals "sff" metric) <:+
      metricReport P scDf metric mLabel := by
  have hgroup : ∀ policy, scDf.vals policy metric ≠ [] →
      groupLine P scDf metric policy =
        (describe P policy (scDf.vals policy metric),some (scDf.vals policy metric)) := by
    intro policy hne
    simp [groupLine,h.column,hne]
  simp only [metricReport,POLICY_ORDER,List.map_cons,List.map_nil,hgroup _ h.fifo_ne,
    hgroup _ h.sff_ne]
  exact List.suffix_append _ _

/-- Whatever the metric is, the policy with the higher median wins: no metric
is called `latency_ms`. -/
theorem metricReport_last {m : String × String} (hm : m ∈ METRICS) (h : Significant P scDf m.1) :
    Reports P scDf m (if P.median (scDf.vals "sff" m.1) < P.median (scDf.vals "fifo" m.1)
      then "FIFO" else "SFF") "HIGHER throughput" := by
  have hname : m.1 ≠ "latency_ms" := by
    rcases metric_names m hm with hm | hm <;> simp [hm]
  obtain ⟨pct,hlast⟩ := compareGroups_last hname h.pValue
  obtain ⟨lines,hlines⟩ := compareGroups_suffix m.2 h
  refine ⟨pct,?_⟩
  rw [← hlines,List.getLast?_append,hlast]
  rfl

theorem reportsBetter_throughput {mLabel : String}
    (hm : ("throughput_rps",mLabel) ∈ METRICS) (h : Significant P scDf "throughput_rps") :
    ReportsBetter P scDf ("throughput_rps",mLabel) := by
  refine ⟨?_,fun scDf' h' hfifo hsff => ?_⟩
  · rw [betterPolicy_throughput]
    exact metricReport_last hm h
  · rw [← betterPolicy_swap _ h.medians,← hfifo,← hsff,betterPolicy_throughput]
    exact metricReport_last hm h'

theorem not_reportsBetter_latency {mLabel : String} (hm : ("mean_ms",mLabel) ∈ METRICS)
    (h : Significant P scDf "mean_ms") : ¬ ReportsBetter P scDf ("mean_ms",mLabel) := by
  intro hbetter
  obtain ⟨pct,hlower⟩ := hbetter.1
  obtain ⟨pct',hhigher⟩ := metricReport_last hm h
  have hsame := Option.some.inj (hhigher.symm.trans hlower)
  refine verdictLine_ne ?_ (betterPolicy_cases _ _ _) _ _ hsame
  split_ifs <;> simp

omit [LinearOrder F] [Neg F] [Sub F] [Mul F] [Div F] [NatCast F] [OfScientific F] in
theorem section_flatMap {A B : Type} {l : List A} {a : A} (h : a ∈ l) (f : A → List B) :
    f a <:+: l.flatMap f := by
  rw [List.flatMap_def]
  exact List.infix_of_mem_flatten (List.mem_map_of_mem h)

theorem metricReport_printed {name scenario : String} {df : DataFrame F} {m : String × String}
    (hsc : scenario ∈ SCENARIOS) (hm : m ∈ METRICS)
    (h : Significant P (df.normalized.inScenario scenario) m.1) :
    metricReport P (df.normalized.inScenario scenario) m.1 m.2 <:+: mainReport P name df := by
  have hrows : (df.normalized.inScenario scenario).rows.isEmpty = false := by
    by_contra hempty
    have hnil : (df.normalized.inScenario scenario).rows = [] := by simpa using hempty
    exact h.fifo_ne (by simp [DataFrame.vals,hnil])
  have hmetric : metricReport P (df.normalized.inScenario scenario) m.1 m.2 <:+:
      METRICS.flatMap fun m => metricReport P (df.normalized.inScenario scenario) m.1 m.2 :=
    section_flatMap hm fun m => metricReport P (df.normalized.inScenario scenario) m.1 m.2
  have hsection : scenarioReport P df.normalized scenario <:+:
      SCENARIOS.flatMap (scenarioReport P df.normalized) := section_flatMap hsc _
  have hin : metricReport P (df.normalized.inScenario scenario) m.1 m.2 <:+:
      scenarioReport P df.normalized scenario := by
    simp only [scenarioReport,hrows,Bool.false_eq_true,if_false]
    exact hmetric.trans (List.suffix_append _ _).isInfix
  exact (hin.trans hsection).trans (List.suffix_append _ _).isInfix

def fivePackages : Packages ℚ where
  mean vals := vals.sum/vals.length
  std _ := 5
  median vals := (vals.insertionSort (· ≤ ·)).getD 2 0
  percentile vals _ := (vals.insertionSort (· ≤ ·)).getD 2 0+5.8
  nan := 0
  shapiro _ := (0.96,0.79)
  mannwhitneyu x y := ((x.product y).countP fun p => p.2 < p.1,2/252)
  format _ x := toString x

def fiveRows (metric : String) (fifo sff : List ℚ) : DataFrame ℚ where
  columns := [metric]
  rows := fifo.map (fun x => ⟨"C","fifo",fun column => if column = metric then some x else none⟩) ++
    sff.map fun x => ⟨"C","sff",fun column => if column = metric then some x else none⟩

theorem fiveRows_vals (metric : String) (fifo sff : List ℚ) :
    ((fiveRows metric fifo sff).normalized.inScenario "C").vals "fifo" metric = fifo ∧
      ((fiveRows metric fifo sff).normalized.inScenario "C").vals "sff" metric = sff := by
  have hscenario : "C".toUpper = "C" := by decide +kernel
  have hfifo : "fifo".toLower = "fifo" := by decide +kernel
  have hsff : "sff".toLower = "sff" := by decide +kernel
  simp [fiveRows,DataFrame.normalized,DataFrame.inScenario,DataFrame.vals,hscenario,hfifo,hsff,
    List.filter_map,Function.comp_def,List.filterMap_map]

def fiveApart (metric : String) : DataFrame ℚ :=
  fiveRows metric [13,19,20,21,27] [43,49,50,51,57]

theorem fiveApart_medians (metric : String) :
    let scDf := (fiveApart metric).normalized.inScenario "C"
    fivePackages.median (scDf.vals "fifo" metric) <
      fivePackages.median (scDf.vals "sff" metric) := by
  obtain ⟨hfifo,hsff⟩ := fiveRows_vals metric [13,19,20,21,27] [43,49,50,51,57]
  simp only [fiveApart,hfifo,hsff]
  norm_num [fivePackages,List.insertionSort]

theorem fiveApart_significant (metric : String) :
    Significant fivePackages ((fiveApart metric).normalized.inScenario "C") metric := by
  obtain ⟨hfifo,hsff⟩ := fiveRows_vals metric [13,19,20,21,27] [43,49,50,51,57]
  constructor
  · simp [fiveApart,fiveRows,DataFrame.normalized,DataFrame.inScenario]
  · simp [fiveApart,hfifo]
  · simp [fiveApart,hsff]
  · rw [fiveApart,hfifo,hsff]
    norm_num [fivePackages,ALPHA]
  · exact (fiveApart_medians metric).ne

end Report

section Winner

variable {F : Type} [LinearOrder F] [Neg F] [Sub F] [Mul F] [Div F] [NatCast F] [OfScientific F]

/-- What `main` prints about a metric on which the policies differ names the
better policy when the metric is the throughput, and only then. -/
theorem reported_winner (P : Packages F) (name scenario : String) (df : DataFrame F)
    (m : String × String) (hsc : scenario ∈ SCENARIOS) (hm : m ∈ METRICS)
    (h : Significant P (df.normalized.inScenario scenario) m.1) :
    metricReport P (df.normalized.inScenario scenario) m.1 m.2 <:+: mainReport P name df ∧
    (ReportsBetter P (df.normalized.inScenario scenario) m ↔ m.1 = "throughput_rps") := by
  refine ⟨metricReport_printed hsc hm h,?_⟩
  obtain ⟨metric,mLabel⟩ := m
  rcases metric_names _ hm with hname | hname
  · cases hname
    exact iff_of_false (not_reportsBetter_latency hm h) (by simp)
  · cases hname
    exact iff_of_true (reportsBetter_throughput hm h) rfl

theorem reported_winner_five :
    ReportsBetter fivePackages ((fiveApart "throughput_rps").normalized.inScenario "C")
      ("throughput_rps","Throughput (req/s)") :=
  (reported_winner fivePackages "summary.csv" "C" (fiveApart "throughput_rps")
    ("throughput_rps","Throughput (req/s)") (by decide) (by decide)
    (fiveApart_significant _)).2.mpr rfl

/-- SFF has the higher latency, and is the winner too. -/
theorem higher_latency_wins :
    let scDf := (fiveApart "mean_ms").normalized.inScenario "C"
    Significant fivePackages scDf "mean_ms" ∧
    fivePackages.median (scDf.vals "fifo" "mean_ms") <
      fivePackages.median (scDf.vals "sff" "mean_ms") ∧
    Reports fivePackages scDf ("mean_ms","Latency (ms)") "SFF" "HIGHER throughput" ∧
    ¬ ReportsBetter fivePackages scDf ("mean_ms","Latency (ms)") := by
  have hm : ("mean_ms","Latency (ms)") ∈ METRICS := by decide
  have h := fiveApart_significant "mean_ms"
  have hlt := fiveApart_medians "mean_ms"
  have hlast := metricReport_last hm h
  rw [if_neg hlt.not_gt] at hlast
  exact ⟨h,hlt,hlast,not_reportsBetter_latency hm h⟩

end Winner

end ConcurrentWebServer.Analysis
