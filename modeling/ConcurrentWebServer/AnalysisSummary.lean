import ConcurrentWebServer.AnalysisModel
import ConcurrentWebServer.CampaignResults
set_option autoImplicit false

/-!
The rows of analysis_summary.csv: which runs of the campaign they count, from
what is in summary.csv.
-/

namespace ConcurrentWebServer.Analysis

section Grouping

variable {α κ : Type} [DecidableEq κ]

theorem countP_cons_key {k : κ} {keys : List κ} (hk : k ∉ keys) (key : α → κ) (p : α → Bool)
    (l : List α) :
    (l.countP fun x => decide (key x = k) && p x) +
        (l.countP fun x => decide (key x ∈ keys) && p x) =
      l.countP fun x => decide (key x ∈ k :: keys) && p x := by
  induction l with
  | nil => rfl
  | cons x l ih =>
    rw [List.countP_cons,List.countP_cons,List.countP_cons,← ih]
    by_cases hx : key x = k
    · simp [hx,hk]
      omega
    · simp [hx]
      omega

/-- Groups with different keys count everything with one of the keys once. -/
theorem countP_groups {keys : List κ} (hn : keys.Nodup) (key : α → κ) (p : α → Bool)
    (l : List α) :
    (keys.map fun k => l.countP fun x => decide (key x = k) && p x).sum =
      l.countP fun x => decide (key x ∈ keys) && p x := by
  induction keys with
  | nil => simp
  | cons k keys ih =>
    obtain ⟨hk,hn⟩ := List.nodup_cons.mp hn
    rw [List.map_cons,List.sum_cons,ih hn,countP_cons_key hk]

theorem filterMap_key {keys : List κ} (hn : keys.Nodup) {f : κ → Option α} {key : α → κ}
    (hf : ∀ k a, f k = some a → key a = k) {k : κ} (hk : k ∈ keys) :
    (keys.filterMap f).filter (fun a => decide (key a = k)) = (f k).toList := by
  have hother : ∀ k' ≠ k, (f k').toList.filter (fun a => decide (key a = k)) = [] := by
    intro k' hne
    cases h : f k' with
    | none => rfl
    | some a => simp [hf k' a h,hne]
  have hself : (f k).toList.filter (fun a => decide (key a = k)) = (f k).toList := by
    cases h : f k with
    | none => rfl
    | some a => simp [hf k a h]
  have hcons : ∀ k' ks, (k' :: ks).filterMap f = (f k').toList ++ ks.filterMap f := by
    intro k' ks
    cases h : f k' <;> simp [h]
  induction keys with
  | nil => cases hk
  | cons k' keys ih =>
    obtain ⟨hk',hn⟩ := List.nodup_cons.mp hn
    rw [hcons,List.filter_append]
    by_cases he : k' = k
    · subst he
      have hnone : (keys.filterMap f).filter (fun a => decide (key a = k')) = [] := by
        rw [List.filter_eq_nil_iff]
        intro a ha hkey
        obtain ⟨k,hmem,hka⟩ := List.mem_filterMap.mp ha
        exact hk' ((hf k a hka).symm.trans (of_decide_eq_true hkey) ▸ hmem)
      rw [hself,hnone,List.append_nil]
    · have hmem : k ∈ keys := (List.mem_cons.mp hk).resolve_left (Ne.symm he)
      rw [hother k' he,ih hn hmem,List.nil_append]

end Grouping

section Model

variable {F : Type} [LinearOrder F] [Div F] [OfScientific F]

structure SummaryRow (F : Type) where
  scenario : String
  policy : String
  metric : String
  n : Nat
  mean : F
  std : F
  median : F
  p95 : F
  p99 : F
  cv : F

variable (P : Packages F) (round : F → Nat → F)

/-- The row of a group. -/
def summaryRow (scenario policy metric : String) (vals : List F) : SummaryRow F :=
  let mean := P.mean vals
  let std := if 1 < vals.length then P.std vals else 0.0
  let cv := if mean ≠ 0.0 then std/mean else P.nan
  { scenario := scenario
    policy := policy
    metric := metric
    n := vals.length
    mean := round mean 3
    std := round std 3
    median := round (P.median vals) 3
    p95 := round (P.percentile vals 95.0) 3
    p99 := round (P.percentile vals 99.0) 3
    cv := round cv 5 }

def groupRow (scDf : DataFrame F) (scenario metric policy : String) : Option (SummaryRow F) :=
  if metric ∉ scDf.columns then none
  else
    let vals := scDf.vals policy metric
    if vals.length = 0 then none else some (summaryRow P round scenario policy metric vals)

def summaryRows (df : DataFrame F) : List (SummaryRow F) :=
  let df := df.normalized
  SCENARIOS.flatMap fun scenario =>
    let scDf := df.inScenario scenario
    if scDf.rows.isEmpty then []
    else METRICS.flatMap fun m => POLICY_ORDER.filterMap (groupRow P round scDf scenario m.1)

end Model

section Groups

variable {F : Type}

def groups : List (String × String × String) :=
  SCENARIOS.flatMap fun scenario => METRICS.flatMap fun m => POLICY_ORDER.map fun policy =>
    (scenario,m.1,policy)

def inGroup (key : String × String × String) (row : Row F) : Bool :=
  row.scenario.toUpper == key.1 && row.policy.toLower == key.2.2

def DataFrame.group (df : DataFrame F) (key : String × String × String) : List F :=
  (df.rows.filter (inGroup key)).filterMap (·.value key.2.1)

theorem vals_group (df : DataFrame F) (scenario metric policy : String) :
    (df.normalized.inScenario scenario).vals policy metric = df.group (scenario,metric,policy) := by
  have hgroup : inGroup (F := F) (scenario,metric,policy) =
      fun row => row.policy.toLower == policy && row.scenario.toUpper == scenario :=
    funext fun row => Bool.and_comm _ _
  simp [DataFrame.vals,DataFrame.inScenario,DataFrame.normalized,DataFrame.group,hgroup,
    List.filter_map,List.filter_filter,List.filterMap_map,Function.comp_def]

theorem group_length (df : DataFrame F) (key : String × String × String) :
    (df.group key).length =
      df.rows.countP fun row => inGroup key row && (row.value key.2.1).isSome := by
  rw [DataFrame.group,List.length_filterMap_eq_countP,List.countP_filter]
  simp only [Bool.and_comm]

end Groups

section Counts

variable {F : Type} [LinearOrder F] [Div F] [OfScientific F]
  {P : Packages F} {round : F → Nat → F} {df : DataFrame F}

def rowOf (P : Packages F) (round : F → Nat → F) (df : DataFrame F)
    (key : String × String × String) : Option (SummaryRow F) :=
  if key.2.1 ∈ df.columns ∧ df.group key ≠ [] then
    some (summaryRow P round key.1 key.2.2 key.2.1 (df.group key))
  else none

theorem groupRow_eq (df : DataFrame F) (scenario metric policy : String) :
    groupRow P round (df.normalized.inScenario scenario) scenario metric policy =
      rowOf P round df (scenario,metric,policy) := by
  have hcolumns : (df.normalized.inScenario scenario).columns = df.columns := rfl
  simp only [groupRow,vals_group,hcolumns,rowOf,List.length_eq_zero_iff]
  split_ifs <;> simp_all

theorem summaryRows_eq (P : Packages F) (round : F → Nat → F) (df : DataFrame F) :
    summaryRows P round df = groups.filterMap (rowOf P round df) := by
  have hscenario : ∀ scenario, (if (df.normalized.inScenario scenario).rows.isEmpty then []
      else METRICS.flatMap fun m => POLICY_ORDER.filterMap
        (groupRow P round (df.normalized.inScenario scenario) scenario m.1)) =
      METRICS.flatMap fun m => POLICY_ORDER.filterMap fun policy =>
        rowOf P round df (scenario,m.1,policy) := by
    intro scenario
    split_ifs with hempty
    · have hrow : ∀ metric policy, rowOf P round df (scenario,metric,policy) = none := by
        intro metric policy
        have hnil : (df.normalized.inScenario scenario).rows = [] := by simpa using hempty
        have hvals : df.group (scenario,metric,policy) = [] := by
          rw [← vals_group,DataFrame.vals,hnil]
          rfl
        simp [rowOf,hvals]
      simp [hrow]
    · have hgroup : ∀ metric, groupRow P round (df.normalized.inScenario scenario) scenario metric =
          fun policy => rowOf P round df (scenario,metric,policy) :=
        fun metric => funext fun policy => groupRow_eq df scenario metric policy
      simp only [hgroup]
  simp only [summaryRows,groups,List.filterMap_flatMap,List.filterMap_map,Function.comp_def,
    hscenario]

def SummaryRow.key (r : SummaryRow F) : String × String × String := (r.scenario,r.metric,r.policy)

theorem rowOf_some {key : String × String × String} {r : SummaryRow F}
    (h : rowOf P round df key = some r) :
    r.key = key ∧ r.n = (df.group key).length ∧ 0 < r.n := by
  rw [rowOf] at h
  split_ifs at h with hkey
  cases h
  exact ⟨rfl,rfl,List.length_pos_iff.mpr hkey.2⟩

theorem rowOf_counts {key : String × String × String} (hcol : key.2.1 ∈ df.columns) :
    ((rowOf P round df key).toList.map (·.n)).sum = (df.group key).length := by
  cases h : rowOf P round df key with
  | none =>
    have hnil : df.group key = [] := by
      by_contra hne
      simp [rowOf,hcol,hne] at h
    rw [hnil]
    rfl
  | some r => simp [(rowOf_some h).2.1]

theorem groups_nodup : groups.Nodup := by decide

theorem summaryRows_keys : ((summaryRows P round df).map SummaryRow.key).Sublist groups := by
  rw [summaryRows_eq,List.map_filterMap]
  have hkey : ∀ key ∈ groups, ∀ key', (rowOf P round df key).map SummaryRow.key = some key' →
      key' = key := by
    intro key _ key' h
    obtain ⟨r,hr,rfl⟩ := Option.map_eq_some_iff.mp h
    exact (rowOf_some hr).1
  generalize groups = keys at hkey
  induction keys with
  | nil => exact .slnil
  | cons key keys ih =>
    have hrest := ih fun key' h => hkey key' (List.mem_cons_of_mem key h)
    rw [List.filterMap_cons]
    split
    · exact hrest.cons key
    · rename_i key' h
      rw [hkey key List.mem_cons_self key' h]
      exact hrest.cons_cons key

def counted (rows : List (SummaryRow F)) (key : String × String × String) : Nat :=
  ((rows.filter fun r => decide (r.key = key)).map (·.n)).sum

theorem counted_eq {key : String × String × String} (hkey : key ∈ groups)
    (hcol : key.2.1 ∈ df.columns) :
    counted (summaryRows P round df) key = (df.group key).length := by
  have hf : ∀ k r, rowOf P round df k = some r → r.key = k := fun _ _ h => (rowOf_some h).1
  rw [counted,summaryRows_eq,filterMap_key groups_nodup hf hkey]
  exact rowOf_counts hcol

theorem metric_groups : ∀ m ∈ METRICS, groups.filter (fun key => key.2.1 == m.1) =
    (SCENARIOS ×ˢ POLICY_ORDER).map fun k => (k.1,m.1,k.2) := by decide

theorem filter_metric (metric : String) : (summaryRows P round df).filter (·.metric == metric) =
    (groups.filter fun key => key.2.1 == metric).filterMap (rowOf P round df) := by
  rw [summaryRows_eq,List.filter_filterMap,List.filterMap_filter]
  congr 1
  funext key
  cases h : rowOf P round df key with
  | none => simp
  | some r =>
    have hmetric : r.metric = key.2.1 := congrArg (·.2.1) (rowOf_some h).1
    simp [Option.filter,hmetric]

theorem sum_counts {keys : List (String × String × String)}
    (hcol : ∀ key ∈ keys, key.2.1 ∈ df.columns) :
    ((keys.filterMap (rowOf P round df)).map (·.n)).sum =
      (keys.map fun key => (df.group key).length).sum := by
  induction keys with
  | nil => rfl
  | cons key keys ih =>
    have hrest := ih fun key' h => hcol key' (List.mem_cons_of_mem key h)
    have hkey : ((rowOf P round df key).toList.map (·.n)).sum = _ :=
      rowOf_counts (hcol key List.mem_cons_self)
    rw [List.map_cons,List.sum_cons,← hrest,← hkey]
    cases h : rowOf P round df key <;> simp [h]

theorem metric_counted {m : String × String} (hm : m ∈ METRICS) (hcol : m.1 ∈ df.columns) :
    (((summaryRows P round df).filter (·.metric == m.1)).map (·.n)).sum =
      df.rows.countP fun row => decide (row.scenario.toUpper ∈ SCENARIOS) &&
        decide (row.policy.toLower ∈ POLICY_ORDER) && (row.value m.1).isSome := by
  have hkeys : ∀ key ∈ groups.filter (fun key => key.2.1 == m.1), key.2.1 ∈ df.columns := by
    intro key hkey
    rw [beq_iff_eq.mp (List.mem_filter.mp hkey).2]
    exact hcol
  have hpairs : (SCENARIOS ×ˢ POLICY_ORDER).Nodup := by decide
  rw [filter_metric,sum_counts hkeys,metric_groups m hm,List.map_map]
  have hsum := countP_groups hpairs (fun row : Row F => (row.scenario.toUpper,row.policy.toLower))
    (fun row => (row.value m.1).isSome) df.rows
  simp only [Function.comp_def,group_length,inGroup]
  simpa only [Prod.ext_iff,List.mem_product,Bool.decide_and,beq_eq_decide] using hsum

theorem rowOf_mem {r : SummaryRow F} :
    r ∈ summaryRows P round df ↔ ∃ key ∈ groups, rowOf P round df key = some r := by
  rw [summaryRows_eq,List.mem_filterMap]

/-- The summary of any file: its rows stand in the order of the loops, at most
one for a group and one for each group that has a value; each has the values of
its group and no others, whatever the case of the names; and of each metric
every value is in one of them. -/
theorem analysis_accounts (P : Packages F) (round : F → Nat → F) (df : DataFrame F) :
    ((summaryRows P round df).map SummaryRow.key).Sublist groups ∧
    ((summaryRows P round df).map SummaryRow.key).Nodup ∧
    (∀ scenario metric policy r, (scenario,metric,policy) ∈ groups →
      (r ∈ summaryRows P round df ∧ r.key = (scenario,metric,policy) ↔
        metric ∈ df.columns ∧ df.group (scenario,metric,policy) ≠ [] ∧
          r = summaryRow P round scenario policy metric (df.group (scenario,metric,policy)))) ∧
    ∀ m ∈ METRICS, m.1 ∈ df.columns →
      (((summaryRows P round df).filter (·.metric == m.1)).map (·.n)).sum =
        df.rows.countP fun row => decide (row.scenario.toUpper ∈ SCENARIOS) &&
          decide (row.policy.toLower ∈ POLICY_ORDER) && (row.value m.1).isSome := by
  refine ⟨summaryRows_keys,groups_nodup.sublist summaryRows_keys,?_,fun m => metric_counted⟩
  intro scenario metric policy r hkey
  rw [rowOf_mem]
  constructor
  · intro h
    obtain ⟨⟨key,_,hr⟩,hrk⟩ := h
    have hsame : key = (scenario,metric,policy) := (rowOf_some hr).1.symm.trans hrk
    subst hsame
    rw [rowOf] at hr
    split_ifs at hr with hcol
    exact ⟨hcol.1,hcol.2,(Option.some.inj hr).symm⟩
  · intro h
    obtain ⟨hcol,hne,rfl⟩ := h
    exact ⟨⟨_,hkey,if_pos ⟨hcol,hne⟩⟩,rfl⟩

end Counts

section Campaign

open CsvText LoadClient

variable {F : Type}

def csvRow (number : List Char → Option F) (header record : List (List Char)) : Row F where
  scenario := String.ofList (((header.zip record).lookup "scenario".toList).getD [])
  policy := String.ofList (((header.zip record).lookup "policy".toList).getD [])
  value column := ((header.zip record).lookup column.toList).bind number

/-- A table as the campaign writes it: the columns have different names, each
record has a cell for each, and those of scenario and policy are names. -/
structure Table (header : List (List Char)) (records : List (List (List Char))) : Prop where
  distinct : header.Nodup
  wide : ∀ record ∈ records, record.length = header.length
  scenario : ∀ record ∈ records, ∀ s ∈ (header.zip record).lookup "scenario".toList,
    s ∈ SCENARIOS.map String.toList
  policy : ∀ record ∈ records, ∀ s ∈ (header.zip record).lookup "policy".toList,
    s ∈ POLICY_ORDER.map String.toList

def Numeric (number : List Char → Option F) (header : List (List Char))
    (records : List (List (List Char))) (column : String) : Prop :=
  ∀ record ∈ records, ∀ s ∈ (header.zip record).lookup column.toList,
    number s ≠ none ∨ s = "nan".toList

/-- What is used of `pd.read_csv`: the first record names the columns, and a
column of numbers is read as such. -/
structure ReadsCsv (readCsv : List Char → DataFrame F) (number : List Char → Option F) : Prop where
  columns : ∀ text header records, readRecords text = header :: records → Table header records →
    (readCsv text).columns = header.map String.ofList
  rows : ∀ text header records, readRecords text = header :: records → Table header records →
    ∃ value : List (List Char) → String → Option F,
      (readCsv text).rows = records.map (fun record =>
        { csvRow number header record with value := value record }) ∧
      ∀ column, Numeric number header records column → ∀ record ∈ records,
        value record column = (csvRow number header record).value column

/-- A trial came through and has a value of the metric. -/
def measures (metric : String) : Option (Stats × List (LoadClient.Row ℚ)) → Bool
  | none => false
  | some (st,_) => metric != "mean_ms" || st.meanMs.isSome

variable {repr : ℚ → List Char} {number : List Char → Option F} {result : LoadClient.Outcome}
  {t : Trial} {st : Stats}

theorem trials_names : ∀ t ∈ trials, t.scenario ∈ ["A","B","C"].map String.toList ∧
    t.policy ∈ ["fifo","sff"].map String.toList := by
  decide +kernel

theorem trial_zip (t : Trial) (st : Stats) :
    summaryColumns.zip ((st.items repr t.arguments).map Prod.snd) = st.items repr t.arguments :=
  List.zip_of_prod (items_columns t.arguments st) rfl

theorem csvRow_trial : csvRow number summaryColumns ((st.items repr t.arguments).map Prod.snd) =
    ⟨String.ofList t.scenario,String.ofList t.policy,fun column =>
      ((st.items repr t.arguments).lookup column.toList).bind number⟩ := by
  rw [csvRow,trial_zip]
  rfl

theorem ofList_eq {l : List Char} {s : String} : String.ofList l = s ↔ l = s.toList := by
  constructor
  · intro h
    rw [← h,String.toList_ofList]
  · intro h
    rw [h,String.ofList_toList]

theorem trial_names (ht : t ∈ trials) :
    (String.ofList t.scenario).toUpper = String.ofList t.scenario ∧
    (String.ofList t.policy).toLower = String.ofList t.policy := by
  have hupper : ∀ s ∈ ["A","B","C"], s.toUpper = s := by decide +kernel
  have hlower : ∀ s ∈ ["fifo","sff"], s.toLower = s := by decide +kernel
  obtain ⟨hscenario,hpolicy⟩ := trials_names t ht
  obtain ⟨s,hs,hts⟩ := List.mem_map.mp hscenario
  obtain ⟨p,hp,htp⟩ := List.mem_map.mp hpolicy
  rw [ofList_eq.mpr hts.symm,ofList_eq.mpr htp.symm]
  exact ⟨hupper s hs,hlower p hp⟩

theorem trial_value (t : Trial) (r : Stats × List (LoadClient.Row ℚ))
    (hnum : ∀ x, number (repr x) ≠ none) (hnan : number "nan".toList = none)
    {m : String × String} (hm : m ∈ METRICS) :
    (((r.1.items repr t.arguments).lookup m.1.toList).bind number).isSome =
      measures m.1 (some r) := by
  obtain ⟨st,rows⟩ := r
  have hsome : ∀ x, (number (repr x)).isSome = true := by
    intro x
    exact Option.isSome_iff_ne_none.mpr (hnum x)
  cases metric_names m hm with
  | inl h =>
    rw [h]
    change (number (cell repr st.meanMs)).isSome = st.meanMs.isSome
    cases st.meanMs with
    | none => exact congrArg Option.isSome hnan
    | some x => simp [cell,hsome]
  | inr h =>
    rw [h]
    exact hsome st.throughputRps

theorem record_of_trial {result : LoadClient.Outcome} {fields : List (List Char)}
    (h : fields ∈ trials.filterMap (record repr result)) :
    ∃ t ∈ trials, ∃ st : Stats, fields = (st.items repr t.arguments).map Prod.snd := by
  obtain ⟨t,ht,hrecord⟩ := List.mem_filterMap.mp h
  obtain ⟨r,_,rfl⟩ := Option.map_eq_some_iff.mp hrecord
  exact ⟨t,ht,r.1,rfl⟩

theorem campaign_table (repr : ℚ → List Char) (result : LoadClient.Outcome) :
    Table summaryColumns (trials.filterMap (record repr result)) where
  distinct := by decide +kernel
  wide fields h := by
    obtain ⟨t,_,st,rfl⟩ := record_of_trial h
    rfl
  scenario fields h s hs := by
    obtain ⟨t,ht,st,rfl⟩ := record_of_trial h
    rw [trial_zip] at hs
    cases hs
    exact (trials_names t ht).1
  policy fields h s hs := by
    obtain ⟨t,ht,st,rfl⟩ := record_of_trial h
    rw [trial_zip] at hs
    cases hs
    exact (trials_names t ht).2

theorem campaign_numeric (hnum : ∀ x, number (repr x) ≠ none) (result : LoadClient.Outcome)
    {m : String × String} (hm : m ∈ METRICS) :
    Numeric number summaryColumns (trials.filterMap (record repr result)) m.1 := by
  intro fields h s hs
  obtain ⟨t,_,st,rfl⟩ := record_of_trial h
  rw [trial_zip] at hs
  rcases metric_names m hm with hname | hname
  · rw [hname] at hs
    cases hs
    cases st.meanMs with
    | none => exact .inr rfl
    | some x => exact .inl (hnum x)
  · rw [hname] at hs
    cases hs
    exact .inl (hnum _)

section Counted

variable [LinearOrder F] [Div F] [OfScientific F]

/-- From the script to the analysis, for every outcome of the trials: summary.csv
is read as one row for each trial that came through, and the analysis has each
of them once, in the group of its scenario and policy. -/
theorem trials_counted {readCsv : List Char → DataFrame F} {number : List Char → Option F}
    (hread : ReadsCsv readCsv number) {repr : ℚ → List Char}
    (hnum : ∀ x, number (repr x) ≠ none) (hnan : number "nan".toList = none) (P : Packages F)
    (round : F → Nat → F) (result : LoadClient.Outcome) :
    ∃ text, campaign repr result summaryPath = some text ∧
      (readCsv text).rows.length = (trials.countP fun t => (result t).isSome) ∧
      ∀ key ∈ groups, counted (summaryRows P round (readCsv text)) key =
        trials.countP fun t => decide (t.scenario = key.1.toList) &&
          decide (t.policy = key.2.2.toList) && measures key.2.1 (result t) := by
  obtain ⟨text,htext,hrecords⟩ := campaign_summary repr result
  have htable := campaign_table repr result
  have hcolumns := hread.columns text _ _ hrecords htable
  obtain ⟨value,hrows,hvalues⟩ := hread.rows text _ _ hrecords htable
  refine ⟨text,htext,?_,fun key hkey => ?_⟩
  · rw [hrows,List.length_map,List.length_filterMap_eq_countP]
    exact List.countP_congr fun t _ => by rw [record,Option.isSome_map]
  · obtain ⟨m,hm,hmetric⟩ : ∃ m ∈ METRICS, key.2.1 = m.1 := by
      revert key
      decide
    have hnames : ∀ m ∈ METRICS, m.1 ∈ summaryColumns.map String.ofList := by decide +kernel
    have hcol : key.2.1 ∈ (readCsv text).columns := by
      rw [hcolumns,hmetric]
      exact hnames m hm
    rw [counted_eq hkey hcol,group_length,hrows,List.countP_map,List.countP_filterMap]
    refine List.countP_congr fun t ht => ?_
    cases hr : result t with
    | none => simp [record,hr,measures]
    | some r =>
      obtain ⟨hscenario,hpolicy⟩ := trial_names ht
      have hrecord : (r.1.items repr t.arguments).map Prod.snd ∈
          trials.filterMap (record repr result) :=
        List.mem_filterMap.mpr ⟨t,ht,by rw [record,hr]; rfl⟩
      have hcell := hvalues m.1 (campaign_numeric hnum result hm) _ hrecord
      have hvalue := trial_value t r hnum hnan hm
      rw [csvRow_trial] at hcell
      simp [record,hr,csvRow_trial,inGroup,hscenario,hpolicy,ofList_eq,hmetric,hcell,hvalue]

def readTable (number : List Char → Option F) (text : List Char) : DataFrame F :=
  match readRecords text with
  | [] => ⟨[],[]⟩
  | header :: records => ⟨header.map String.ofList,records.map (csvRow number header)⟩

omit [LinearOrder F] [Div F] [OfScientific F] in
theorem readTable_reads (number : List Char → Option F) : ReadsCsv (readTable number) number where
  columns text header records h _ := by rw [readTable,h]
  rows text header records h _ :=
    ⟨fun record => (csvRow number header record).value,by rw [readTable,h],fun _ _ _ _ => rfl⟩

end Counted

section Stress

/-! A campaign of which only the trials of scenario C come through. -/

def numeral (l : List Char) : Option ℚ :=
  let whole := l.takeWhile (· != '.')
  let places := (l.dropWhile (· != '.')).drop 1
  if whole ≠ [] ∧ (whole ++ places).all Char.isDigit then
    some (Nat.ofDigitChars 10 (whole ++ places) 0/10^places.length)
  else none

def reprFloat (x : ℚ) : List Char := Nat.toDigits 10 x.num.natAbs ++ ".0".toList

theorem numeral_reprFloat (x : ℚ) : numeral (reprFloat x) = some (x.num.natAbs : ℚ) := by
  have hdigit : ∀ c ∈ Nat.toDigits 10 x.num.natAbs, c.isDigit = true :=
    fun c hc => Nat.isDigit_of_mem_toDigits (b := 10) (by decide) (by decide) hc
  have hpoint : ∀ c ∈ Nat.toDigits 10 x.num.natAbs, (c != '.') = true := by
    intro c hc
    rw [bne_iff_ne]
    rintro rfl
    exact absurd (hdigit _ hc) (by decide)
  have htake : (reprFloat x).takeWhile (· != '.') = Nat.toDigits 10 x.num.natAbs := by
    rw [reprFloat,List.takeWhile_append_of_pos hpoint]
    simp
  have hdrop : (reprFloat x).dropWhile (· != '.') = ".0".toList := by
    rw [reprFloat,List.dropWhile_append_of_pos hpoint]
    rfl
  have hall : (Nat.toDigits 10 x.num.natAbs ++ ['0']).all Char.isDigit = true := by
    rw [List.all_append,List.all_eq_true.mpr hdigit]
    rfl
  have hvalue : Nat.ofDigitChars 10 (Nat.toDigits 10 x.num.natAbs ++ ['0']) 0 =
      10*x.num.natAbs := by
    rw [Nat.ofDigitChars_append,Nat.ofDigitChars_ten_toDigits]
    rfl
  simp only [numeral,htake,hdrop]
  rw [show List.drop 1 ".0".toList = ['0'] from rfl,if_pos ⟨Nat.toDigits_ne_nil,hall⟩,hvalue]
  simp

def stressOnly : LoadClient.Outcome := fun t =>
  if t.scenario = ['C'] then
    some (⟨1500,1050,450,0,some 12,some 8,some 30,some 41,some 9,some 20,some 25,some 19,some 35,
      some 45,50,some 1⟩,[])
  else none

def averages : Packages ℚ :=
  ⟨fun l => l.sum/l.length,fun _ => 0,fun _ => 0,fun _ _ => 0,0,fun _ => (1,1),fun _ _ => (0,1),
    fun _ _ => ""⟩

theorem trials_counted_stress : ∃ text, campaign reprFloat stressOnly summaryPath = some text ∧
    (readTable numeral text).rows.length = 100 ∧
    counted (summaryRows averages pyRound (readTable numeral text)) ("C","mean_ms","sff") = 50 ∧
    counted (summaryRows averages pyRound (readTable numeral text)) ("A","mean_ms","sff") = 0 := by
  obtain ⟨text,htext,hlen,hcount⟩ := trials_counted (readTable_reads numeral)
    (fun x => by rw [numeral_reprFloat]; exact Option.some_ne_none _) rfl
    averages pyRound stressOnly
  refine ⟨text,htext,hlen.trans ?_,(hcount ("C","mean_ms","sff") (by decide)).trans ?_,
    (hcount ("A","mean_ms","sff") (by decide)).trans ?_⟩
  · decide +kernel
  · decide +kernel
  · decide +kernel

end Stress

end Campaign

end ConcurrentWebServer.Analysis
