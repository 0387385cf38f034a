import ConcurrentWebServer.CsvText
import ConcurrentWebServer.ExperimentSite
import ConcurrentWebServer.LoadSummary
set_option autoImplicit false

/-!
The files that run_experiments.sh leaves in its directory of results, from what
load_client.py writes in each of its runs.
-/

namespace ConcurrentWebServer.LoadClient
open CsvText PythonText

section Writing

abbrev Directory := List Char → Option (List Char)

structure Arguments where
  scenario : List Char
  policy : List Char
  replica : Int
  rawOutput : Option (List Char)
  summaryOutput : Option (List Char)

def FileType.text : FileType → List Char
  | .small => "small".toList
  | .large => "large".toList

def rawColumns : List (List Char) :=
  ["ts_ms".toList,"file_type".toList,"uri".toList,"latency_ms".toList,"status".toList,
   "bytes_received".toList]

variable (repr : ℚ → List Char)

def Row.fields (r : Row ℚ) : List (List Char) :=
  [repr r.tsMs,r.ftype.text,r.uri.toList,repr r.lat,(toString r.status).toList,
   (toString r.size).toList]

def rawText (rows : List (Row ℚ)) : List Char :=
  writeRow rawColumns ++ rows.flatMap fun r => writeRow (r.fields repr)

def cell (x : Option ℚ) : List Char := (x.map repr).getD "nan".toList

def Stats.items (args : Arguments) (st : Stats) : List (List Char × List Char) :=
  [("scenario".toList,args.scenario),("policy".toList,args.policy),
   ("replica".toList,(toString args.replica).toList),
   ("n_total".toList,(toString st.nTotal).toList),("n_small".toList,(toString st.nSmall).toList),
   ("n_large".toList,(toString st.nLarge).toList),
   ("n_errors".toList,(toString st.nErrors).toList),("mean_ms".toList,cell repr st.meanMs),
   ("p50_ms".toList,cell repr st.p50Ms),("p95_ms".toList,cell repr st.p95Ms),
   ("p99_ms".toList,cell repr st.p99Ms),("mean_ms_small".toList,cell repr st.meanMsSmall),
   ("p95_ms_small".toList,cell repr st.p95MsSmall),
   ("p99_ms_small".toList,cell repr st.p99MsSmall),
   ("mean_ms_large".toList,cell repr st.meanMsLarge),
   ("p95_ms_large".toList,cell repr st.p95MsLarge),
   ("p99_ms_large".toList,cell repr st.p99MsLarge),
   ("throughput_rps".toList,repr st.throughputRps),("fairness_cv".toList,cell repr st.fairnessCv)]

/-- One run's part of the summary: with a header only where there was no file. -/
def appendSummary (file : Option (List Char)) (items : List (List Char × List Char)) : List Char :=
  file.getD [] ++ (if file.isNone then writeRow (items.map Prod.fst) else []) ++
    writeRow (items.map Prod.snd)

def writeResults (args : Arguments) (st : Stats) (rows : List (Row ℚ)) (dir : Directory) :
    Directory :=
  let dir := match args.rawOutput.filter (!·.isEmpty) with
    | some path => Function.update dir path (some (rawText repr rows))
    | none => dir
  match args.summaryOutput.filter (!·.isEmpty) with
  | some path => Function.update dir path (some (appendSummary (dir path) (st.items repr args)))
  | none => dir

end Writing

section Campaign

structure Trial where
  scenario : List Char
  smallRatio : List Char
  rate : List Char
  duration : List Char
  serverThreads : List Char
  policy : List Char
  replica : List Char

def SCENARIOS : List String := ["A:1.0:100:60:8","B:0.7:100:60:8","C:0.8:500:60:12"]

def POLICIES : List String := ["fifo","sff"]

def REPLICAS : Nat := 50

def trialsOf (spec : String) : List Trial :=
  match spec.toList.splitOn ':' with
  | [scenario,smallRatio,rate,duration,serverThreads] =>
      POLICIES.flatMap fun policy => (seqW REPLICAS).map fun replica =>
        ⟨scenario,smallRatio,rate,duration,serverThreads,policy.toList,replica.toList⟩
  | _ => []

def trials : List Trial := SCENARIOS.flatMap trialsOf

def summaryPath : List Char := "summary.csv".toList

def Trial.rawPath (t : Trial) : List Char :=
  "raw_".toList ++ t.scenario ++ '_' :: t.policy ++ '_' :: t.replica ++ ".csv".toList

def Trial.arguments (t : Trial) : Arguments where
  scenario := t.scenario
  policy := t.policy
  replica := (parseInt t.replica).getD 0
  rawOutput := some t.rawPath
  summaryOutput := some summaryPath

def summaryHeader : String :=
  "scenario,policy,replica,n_total,n_small,n_large,n_errors,mean_ms,p50_ms,p95_ms,p99_ms," ++
    "mean_ms_small,p95_ms_small,p99_ms_small,mean_ms_large,p95_ms_large,p99_ms_large," ++
    "throughput_rps,fairness_cv\n"

/-- What a trial comes to: the summary and the rows of its load client, or
nothing if that fails before it writes. -/
abbrev Outcome := Trial → Option (Stats × List (Row ℚ))

def runTrial (repr : ℚ → List Char) (result : Outcome) (dir : Directory) (t : Trial) : Directory :=
  match result t with
  | some (st,rows) => writeResults repr t.arguments st rows dir
  | none => dir

def campaign (repr : ℚ → List Char) (result : Outcome) : Directory :=
  trials.foldl (runTrial repr result)
    (Function.update (fun _ => none) summaryPath (some summaryHeader.toList))

end Campaign

section Paths

def numberOf (path : List Char) : Nat :=
  let r := path.reverse
  (2*((path.getD 4 'A').toNat-65)+if path.getD 6 'f' = 'f' then 0 else 1)*50+
    10*((r.getD 5 '0').toNat-48)+((r.getD 4 '0').toNat-48)-1

theorem numberOf_trials : (trials.map Trial.rawPath).map numberOf = List.range 300 := by
  decide +kernel

theorem rawPath_nodup : (trials.map Trial.rawPath).Nodup := by
  refine List.Nodup.of_map numberOf ?_
  rw [numberOf_trials]
  exact List.nodup_range

theorem rawPath_ne_summary (t : Trial) : t.rawPath ≠ summaryPath := by
  intro h
  have hr : t.rawPath.head? = some 'r' := rfl
  rw [h] at hr
  revert hr
  decide

variable {repr : ℚ → List Char} {result : Outcome} {dir : Directory} {t : Trial} {st : Stats}
  {rows : List (Row ℚ)}

theorem runTrial_some (h : result t = some (st,rows)) : runTrial repr result dir t =
    Function.update (Function.update dir t.rawPath (some (rawText repr rows))) summaryPath
      (some (appendSummary (dir summaryPath) (st.items repr t.arguments))) := by
  have hraw : t.arguments.rawOutput.filter (!·.isEmpty) = some t.rawPath := rfl
  have hsummary : t.arguments.summaryOutput.filter (!·.isEmpty) = some summaryPath := rfl
  simp only [runTrial,h,writeResults,hraw,hsummary,
    Function.update_of_ne (rawPath_ne_summary t).symm]

theorem runTrial_other {path : List Char} (hs : path ≠ summaryPath) (hr : path ≠ t.rawPath) :
    runTrial repr result dir t path = dir path := by
  cases h : result t with
  | none => simp [runTrial,h]
  | some r =>
    rw [runTrial_some h,Function.update_of_ne hs,Function.update_of_ne hr]

def record (repr : ℚ → List Char) (result : Outcome) (t : Trial) : Option (List (List Char)) :=
  (result t).map fun r => (r.1.items repr t.arguments).map Prod.snd

theorem runTrial_summary {text : List Char} (hd : dir summaryPath = some text) :
    runTrial repr result dir t summaryPath =
      some (text ++ (record repr result t).toList.flatMap writeRow) := by
  cases h : result t with
  | none => simp [runTrial,h,hd,record]
  | some r =>
    rw [runTrial_some h,Function.update_self,hd]
    simp [appendSummary,record,h]

theorem foldl_other {ts : List Trial} {path : List Char} (hs : path ≠ summaryPath)
    (hr : ∀ t ∈ ts, path ≠ t.rawPath) : ts.foldl (runTrial repr result) dir path = dir path := by
  induction ts generalizing dir with
  | nil => rfl
  | cons t ts ih =>
    rw [List.foldl_cons,ih fun u hu => hr u (List.mem_cons_of_mem t hu),
      runTrial_other hs (hr t List.mem_cons_self)]

theorem foldl_summary {ts : List Trial} {text : List Char} (hd : dir summaryPath = some text) :
    ts.foldl (runTrial repr result) dir summaryPath =
      some (text ++ (ts.filterMap (record repr result)).flatMap writeRow) := by
  induction ts generalizing dir text with
  | nil => simp [hd]
  | cons t ts ih =>
    rw [List.foldl_cons,ih (runTrial_summary hd)]
    cases h : record repr result t <;> simp [h]

theorem foldl_raw {ts : List Trial} (hn : (ts.map Trial.rawPath).Nodup) (ht : t ∈ ts) :
    ts.foldl (runTrial repr result) dir t.rawPath =
      (result t).elim (dir t.rawPath) fun r => some (rawText repr r.2) := by
  induction ts generalizing dir with
  | nil => cases ht
  | cons u ts ih =>
    rw [List.map_cons,List.nodup_cons] at hn
    obtain ⟨hfresh,hn⟩ := hn
    rw [List.foldl_cons]
    rcases List.mem_cons.mp ht with rfl | ht
    · have hother : ∀ v ∈ ts, t.rawPath ≠ v.rawPath := by
        intro v hv he
        exact hfresh (he ▸ List.mem_map_of_mem hv)
      rw [foldl_other (rawPath_ne_summary t) hother]
      cases h : result t with
      | none => simp [runTrial,h]
      | some r =>
        rw [runTrial_some h,Function.update_of_ne (rawPath_ne_summary t),Function.update_self]
        rfl
    · have hne : t.rawPath ≠ u.rawPath := by
        intro he
        exact hfresh (he ▸ List.mem_map_of_mem ht)
      rw [ih hn ht,runTrial_other (rawPath_ne_summary t) hne]

end Paths

section Reading

variable {repr : ℚ → List Char}

def summaryColumns : List (List Char) :=
  ["scenario","policy","replica","n_total","n_small","n_large","n_errors","mean_ms","p50_ms",
   "p95_ms","p99_ms","mean_ms_small","p95_ms_small","p99_ms_small","mean_ms_large",
   "p95_ms_large","p99_ms_large","throughput_rps","fairness_cv"].map String.toList

theorem items_columns (args : Arguments) (st : Stats) :
    (st.items repr args).map Prod.fst = summaryColumns := rfl

theorem summaryHeader_eq : summaryHeader.toList = writeRecord summaryColumns ++ ['\n'] := by
  decide +kernel

theorem rawText_read (rows : List (Row ℚ)) :
    readRecords (rawText repr rows) = rawColumns :: rows.map (Row.fields repr) := by
  have hne : ∀ row ∈ rows.map (Row.fields repr), row ≠ [] := by
    intro row hrow
    obtain ⟨r,_,rfl⟩ := List.mem_map.mp hrow
    simp [Row.fields]
  rw [rawText,readRecords_row (by simp [rawColumns]),← List.flatMap_map,readRecords_rows hne]

theorem record_ne_nil {result : Outcome} {ts : List Trial} :
    ∀ row ∈ ts.filterMap (record repr result), row ≠ [] := by
  intro row hrow
  obtain ⟨t,_,ht⟩ := List.mem_filterMap.mp hrow
  obtain ⟨r,_,rfl⟩ := Option.map_eq_some_iff.mp ht
  simp [Stats.items]

theorem campaign_summary (repr : ℚ → List Char) (result : Outcome) :
    ∃ text, campaign repr result summaryPath = some text ∧
      readRecords text = summaryColumns :: trials.filterMap (record repr result) := by
  refine ⟨_,foldl_summary (Function.update_self _ _ _),?_⟩
  rw [summaryHeader_eq,List.append_assoc,List.singleton_append,
    readFrom_record (.inr rfl) (by simp [summaryColumns]),readRecords_rows record_ne_nil]

/-- Whatever becomes of the trials: the summary has a row for each that came
through, in order and under the columns of the load client; each of these has
its rows in a file of its own; and there is no other file. -/
theorem campaign_read_back (repr : ℚ → List Char) (result : Outcome) :
    trials.length = 300 ∧ (trials.map Trial.rawPath).Nodup ∧
    (∃ text, campaign repr result summaryPath = some text ∧
      readRecords text = summaryColumns :: trials.filterMap fun t =>
        (result t).map fun r => (r.1.items repr t.arguments).map Prod.snd) ∧
    (∀ t ∈ trials, ∀ st rows, result t = some (st,rows) →
      ∃ text, campaign repr result t.rawPath = some text ∧
        readRecords text = rawColumns :: rows.map (Row.fields repr)) ∧
    ∀ path text, campaign repr result path = some text →
      path = summaryPath ∨ ∃ t ∈ trials, result t ≠ none ∧ path = t.rawPath := by
  refine ⟨by decide +kernel,rawPath_nodup,campaign_summary repr result,fun t ht st rows h => ?_,
    fun path text hp => ?_⟩
  · refine ⟨rawText repr rows,?_,rawText_read rows⟩
    rw [campaign,foldl_raw rawPath_nodup ht,h]
    rfl
  · by_cases hs : path = summaryPath
    · exact .inl hs
    · by_cases hr : ∃ t ∈ trials, path = t.rawPath
      · obtain ⟨t,ht,rfl⟩ := hr
        refine .inr ⟨t,ht,fun hnone => ?_,rfl⟩
        rw [campaign,foldl_raw rawPath_nodup ht,hnone,Option.elim,
          Function.update_of_ne (rawPath_ne_summary t)] at hp
        cases hp
      · push Not at hr
        rw [campaign,foldl_other hs hr,Function.update_of_ne hs] at hp
        cases hp

end Reading

end ConcurrentWebServer.LoadClient
