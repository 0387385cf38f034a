import Mathlib.Order.Lattice
import Mathlib.Algebra.Group.Defs
import Mathlib.Data.Nat.Cast.Defs
set_option autoImplicit false

/-!
analyze_results.py, what it prints up to where it starts to draw. Numbers are
of a linearly ordered type `F` of whose operations nothing is assumed.
-/

namespace ConcurrentWebServer.Analysis

/-- What is used of numpy, of scipy and of the format of a number: `std` has
`ddof=1`, and the test is two-sided. -/
structure Packages (F : Type) where
  mean : List F → F
  std : List F → F
  median : List F → F
  percentile : List F → F → F
  nan : F
  shapiro : List F → F × F
  mannwhitneyu : List F → List F → F × F
  format : String → F → String

structure Row (F : Type) where
  scenario : String
  policy : String
  value : String → Option F

structure DataFrame (F : Type) where
  columns : List String
  rows : List (Row F)

def SCENARIOS : List String := ["A","B","C"]

def SCENARIO_LABELS : List (String × String) :=
  [("A","Scenario A: Homogeneous (100% small)"),
   ("B","Scenario B: Heterogeneous (70% small, 30% large)"),
   ("C","Scenario C: Stress (500 req/s)")]

def METRICS : List (String × String) :=
  [("mean_ms","Latency (ms)"),("throughput_rps","Throughput (req/s)")]

theorem metric_names : ∀ m ∈ METRICS, m.1 = "mean_ms" ∨ m.1 = "throughput_rps" := by decide

def POLICY_ORDER : List String := ["fifo","sff"]

section Model

variable {F : Type} [LinearOrder F] [Neg F] [Sub F] [Mul F] [Div F] [NatCast F] [OfScientific F]

def ALPHA : F := 0.05

def pyAbs (x : F) : F := if x < 0.0 then -x else x

def rankBiserial (uStat : F) (n1 n2 : Nat) : F := 1.0-(2.0*uStat)/((n1*n2 : Nat) : F)

def interpretEffect (r : F) : String :=
  let a := pyAbs r
  if a < 0.1 then "negligible"
  else if a < 0.3 then "small"
  else if a < 0.5 then "medium"
  else "large"

def isNormal (pValue : F) : String := if (ALPHA : F) ≤ pValue then "yes" else "no"

def significanceStars (pValue : F) : String :=
  if pValue < 0.001 then "***"
  else if pValue < 0.01 then "**"
  else if pValue < 0.05 then "*"
  else "ns"

/-- No letter outside ASCII becomes part of a name that is looked for. -/
def DataFrame.normalized (df : DataFrame F) : DataFrame F :=
  { df with rows := df.rows.map fun row =>
      { row with scenario := row.scenario.toUpper, policy := row.policy.toLower } }

def DataFrame.inScenario (df : DataFrame F) (scenario : String) : DataFrame F :=
  { df with rows := df.rows.filter (·.scenario == scenario) }

/-- `sc_df[sc_df["policy"] == policy][metric].dropna().values`. -/
def DataFrame.vals (scDf : DataFrame F) (policy metric : String) : List F :=
  (scDf.rows.filter (·.policy == policy)).filterMap (·.value metric)

variable (P : Packages F)

def describe (policy : String) (vals : List F) : String :=
  let mean := P.mean vals
  let std := if 1 < vals.length then P.std vals else 0.0
  let median := P.median vals
  let p95 := P.percentile vals 95.0
  let (swP,normal) :=
    if 3 ≤ vals.length then
      let (_,swP) := P.shapiro vals
      (swP,isNormal swP)
    else (1.0,"N/A")
  let cv := if mean ≠ 0.0 then std/mean else P.nan
  "    " ++ policy.toUpper.rightpad 5 ++ "  n=" ++ (toString vals.length).leftpad 3 ++ "  " ++
    "mean=" ++ P.format "10.2f" mean ++ "  std=" ++ P.format "8.2f" std ++ "  " ++
    "median=" ++ P.format "10.2f" median ++ "  p95=" ++ P.format "10.2f" p95 ++
    "  CV=" ++ P.format ".3f" cv ++ "  [Shapiro p=" ++ P.format ".4f" swP ++ " → " ++ normal ++ "]"

def groupLine (scDf : DataFrame F) (metric policy : String) : String × Option (List F) :=
  if metric ∉ scDf.columns then
    ("    WARNING: column '" ++ metric ++ "' not present for policy " ++ policy,none)
  else
    let vals := scDf.vals policy metric
    if vals.length = 0 then ("    " ++ policy.toUpper ++ ": NO DATA",none)
    else (describe P policy vals,some vals)

def compareGroups (metric : String) (fifoVals sffVals : List F) : List String :=
  let (uStat,pValue) := P.mannwhitneyu fifoVals sffVals
  let r := rankBiserial uStat fifoVals.length sffVals.length
  let stars := significanceStars pValue
  ["\n    Mann-Whitney U: U=" ++ P.format ".1f" uStat ++ ", p=" ++ P.format ".4f" pValue ++
      " " ++ stars,
   "    Effect size (r): " ++ P.format "+.3f" r ++ " (" ++ interpretEffect r ++ ")",
   if pValue < ALPHA then
     let fifoMedian := P.median fifoVals
     let sffMedian := P.median sffVals
     if metric == "latency_ms" then
       let winner := if fifoMedian < sffMedian then "FIFO" else "SFF"
       let pctDiff := pyAbs (sffMedian-fifoMedian)/min fifoMedian sffMedian*100.0
       "    ✓ " ++ winner ++ " has significantly LOWER latency (" ++ P.format ".1f" pctDiff ++ "%)"
     else
       let winner := if sffMedian < fifoMedian then "FIFO" else "SFF"
       let pctDiff := pyAbs (sffMedian-fifoMedian)/min fifoMedian sffMedian*100.0
       "    ✓ " ++ winner ++ " has significantly HIGHER throughput (" ++
         P.format ".1f" pctDiff ++ "%)"
   else "    ✗ No statistically significant difference"]

def metricReport (scDf : DataFrame F) (metric mLabel : String) : List String :=
  let groups := POLICY_ORDER.map fun policy => (policy,groupLine P scDf metric policy)
  ["\n  Metric: " ++ mLabel,"  " ++ "".pushn '─' 70] ++ groups.map (·.2.1) ++
    match groups.lookup "fifo", groups.lookup "sff" with
    | some (_,some fifoVals), some (_,some sffVals) =>
        compareGroups P metric fifoVals sffVals
    | _, _ => []

def scenarioReport (df : DataFrame F) (scenario : String) : List String :=
  let scDf := df.inScenario scenario
  if scDf.rows.isEmpty then ["\n[" ++ scenario ++ "] No data — skipping."]
  else
    ["\n" ++ "".pushn '─' 80,"  " ++ (SCENARIO_LABELS.lookup scenario).getD scenario,
      "".pushn '─' 80] ++
    METRICS.flatMap fun m => metricReport P scDf m.1 m.2

/-- The lines `main` prints for a file with this name, each with one `print`. -/
def mainReport (name : String) (df : DataFrame F) : List String :=
  let df := df.normalized
  ["".pushn '=' 80,"  FIFO vs SFF — Statistical Analysis Report","  Source: " ++ name,
    "  Total rows: " ++ toString df.rows.length,"".pushn '=' 80] ++
  SCENARIOS.flatMap (scenarioReport P df)

end Model

end ConcurrentWebServer.Analysis
