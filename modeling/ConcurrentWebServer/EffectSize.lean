import ConcurrentWebServer.RankSums
import ConcurrentWebServer.ReportedWinner
set_option autoImplicit false

/-! The effect size that analyze_results.py prints: by how much more often the
values of one policy lie below those of the other. -/

namespace ConcurrentWebServer.Analysis
open RankSums

section Lines

variable {F : Type} [LinearOrder F] [Neg F] [Sub F] [Mul F] [Div F] [NatCast F] [OfScientific F]

structure Sampled (scDf : DataFrame F) (metric : String) : Prop where
  column : metric ∈ scDf.columns
  fifo_ne : scDf.vals "fifo" metric ≠ []
  sff_ne : scDf.vals "sff" metric ≠ []

def effectLine (P : Packages F) (r : F) : String :=
  "    Effect size (r): " ++ P.format "+.3f" r ++ " (" ++ interpretEffect r ++ ")"

/-- The section of a metric has two lines of its name, one for each policy,
and that of the test; then comes the effect size. -/
def ReportsEffect (P : Packages F) (scDf : DataFrame F) (m : String × String) (r : F) : Prop :=
  (metricReport P scDf m.1 m.2)[5]? = some (effectLine P r)

variable {P : Packages F} {scDf : DataFrame F} {m : String × String}

theorem compareGroups_effect (metric : String) (fifoVals sffVals : List F) :
    (compareGroups P metric fifoVals sffVals)[1]? = some (effectLine P
      (rankBiserial (P.mannwhitneyu fifoVals sffVals).1 fifoVals.length sffVals.length)) := by
  obtain ⟨test,verdict,hlines⟩ : ∃ test verdict, compareGroups P metric fifoVals sffVals =
      [test,effectLine P (rankBiserial (P.mannwhitneyu fifoVals sffVals).1 fifoVals.length
        sffVals.length),verdict] := ⟨_,_,rfl⟩
  rw [hlines]
  rfl

theorem metricReport_lines (h : Sampled scDf m.1) : ∃ lines : List String, lines.length = 4 ∧
    metricReport P scDf m.1 m.2 =
      lines ++ compareGroups P m.1 (scDf.vals "fifo" m.1) (scDf.vals "sff" m.1) := by
  have hgroup : ∀ policy, scDf.vals policy m.1 ≠ [] →
      groupLine P scDf m.1 policy =
        (describe P policy (scDf.vals policy m.1),some (scDf.vals policy m.1)) := by
    intro policy hne
    simp [groupLine,h.column,hne]
  simp only [metricReport,POLICY_ORDER,List.map_cons,List.map_nil,hgroup _ h.fifo_ne,
    hgroup _ h.sff_ne]
  exact ⟨_,rfl,rfl⟩

theorem reportsEffect_of (h : Sampled scDf m.1) :
    ReportsEffect P scDf m (rankBiserial
      (P.mannwhitneyu (scDf.vals "fifo" m.1) (scDf.vals "sff" m.1)).1
      (scDf.vals "fifo" m.1).length (scDf.vals "sff" m.1).length) := by
  obtain ⟨lines,hlen,hreport⟩ := metricReport_lines (P := P) h
  rw [ReportsEffect,hreport,List.getElem?_append_right (by omega),hlen]
  exact compareGroups_effect _ _ _

end Lines

section Effect

variable {P : Packages ℚ} {scDf scDf' : DataFrame ℚ} {m : String × String}

theorem pyAbs_eq (x : ℚ) : pyAbs x = |x| := by
  have hzero : (0.0 : ℚ) = 0 := by norm_num
  rw [pyAbs,hzero]
  split_ifs with h
  · exact (abs_of_neg h).symm
  · exact (abs_of_nonneg (not_lt.mp h)).symm

theorem interpretEffect_neg (r : ℚ) : interpretEffect (-r) = interpretEffect r := by
  rw [interpretEffect,interpretEffect,pyAbs_eq,pyAbs_eq,abs_neg]

theorem rankBiserial_excess {xs ys : List ℚ} (hx : xs ≠ []) (hy : ys ≠ []) :
    rankBiserial (uStatistic xs ys) xs.length ys.length = excess xs ys := by
  rw [← one_sub_uStatistic hx hy,rankBiserial,Nat.cast_mul]
  norm_num

theorem reportsEffect (hu : ∀ xs ys, (P.mannwhitneyu xs ys).1 = uStatistic xs ys)
    (h : Sampled scDf m.1) :
    ReportsEffect P scDf m (excess (scDf.vals "fifo" m.1) (scDf.vals "sff" m.1)) := by
  have hreport := reportsEffect_of (P := P) h
  rwa [hu,rankBiserial_excess h.fifo_ne h.sff_ne] at hreport

/-- The effect size is by how much more of the pairs have the lower value under
FIFO than under SFF. It is between -1 and 1, where it is an end if and only if
one policy lies below the other throughout; it changes its sign and not its
name when the policies are exchanged; and no other unit or scale changes it. -/
theorem effect_size (P : Packages ℚ)
    (hu : ∀ xs ys, (P.mannwhitneyu xs ys).1 = uStatistic xs ys) (m : String × String)
    (h : Sampled scDf m.1) :
    let fifo := scDf.vals "fifo" m.1
    let sff := scDf.vals "sff" m.1
    ∃ r, ReportsEffect P scDf m r ∧
      r*((fifo.length : ℚ)*sff.length) = (below fifo sff : ℚ)-above fifo sff ∧
      |r| ≤ 1 ∧ (r = 1 ↔ ∀ x ∈ fifo, ∀ y ∈ sff, x < y) ∧
      (r = -1 ↔ ∀ x ∈ fifo, ∀ y ∈ sff, y < x) ∧
      interpretEffect (-r) = interpretEffect r ∧
      (∀ scDf', Sampled scDf' m.1 → scDf'.vals "fifo" m.1 = sff →
        scDf'.vals "sff" m.1 = fifo → ReportsEffect P scDf' m (-r)) ∧
      ∀ (f : ℚ → ℚ), StrictMono f → ∀ scDf', Sampled scDf' m.1 →
        scDf'.vals "fifo" m.1 = fifo.map f → scDf'.vals "sff" m.1 = sff.map f →
        ReportsEffect P scDf' m r := by
  intro fifo sff
  have hpos := pairs_pos h.fifo_ne h.sff_ne
  have hneg : excess sff fifo = -excess fifo sff := excess_neg fifo sff
  refine ⟨excess fifo sff,reportsEffect hu h,?_,?_,excess_eq_one h.fifo_ne h.sff_ne,?_,
    interpretEffect_neg _,?_,?_⟩
  · exact div_mul_cancel₀ _ hpos.ne'
  · have hlow := excess_le_one h.sff_ne h.fifo_ne
    rw [hneg] at hlow
    rw [abs_le]
    exact ⟨by linarith,excess_le_one h.fifo_ne h.sff_ne⟩
  · have hone := excess_eq_one h.sff_ne h.fifo_ne
    rw [hneg,neg_eq_iff_eq_neg] at hone
    rw [hone]
    exact ⟨fun hall x hx y hy => hall y hy x hx,fun hall y hy x hx => hall x hx y hy⟩
  · intro scDf' h' hfifo hsff
    have hreport := reportsEffect hu h'
    rwa [hfifo,hsff,hneg] at hreport
  · intro f hf scDf' h' hfifo hsff
    have hreport := reportsEffect hu h'
    rwa [hfifo,hsff,excess_map hf] at hreport

/-- The test on these samples, as it is: of the 252 ways to share ten ranks two
are as far apart. -/
def rankPackages : Packages ℚ :=
  { fivePackages with mannwhitneyu := fun xs ys => (uStatistic xs ys,2/252) }

theorem effect_size_apart :
    ReportsEffect rankPackages ((fiveApart "throughput_rps").normalized.inScenario "C")
      ("throughput_rps","Throughput (req/s)") 1 := by
  obtain ⟨hfifo,hsff⟩ := fiveRows_vals "throughput_rps" [13,19,20,21,27] [43,49,50,51,57]
  have h : Sampled ((fiveApart "throughput_rps").normalized.inScenario "C") "throughput_rps" :=
    ⟨(fiveApart_significant _).column,(fiveApart_significant _).fifo_ne,
      (fiveApart_significant _).sff_ne⟩
  obtain ⟨r,hr,_,_,hone,_⟩ := effect_size rankPackages (fun _ _ => rfl)
    ("throughput_rps","Throughput (req/s)") h
  have happart : ∀ x ∈ ([13,19,20,21,27] : List ℚ), ∀ y ∈ ([43,49,50,51,57] : List ℚ), x < y := by
    decide
  have hall : r = 1 := hone.mpr (by rwa [fiveApart,hfifo,hsff])
  rwa [hall] at hr

end Effect

end ConcurrentWebServer.Analysis
