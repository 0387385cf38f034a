import Mathlib.Algebra.Ring.Nat
import Mathlib.Data.List.Basic
import Mathlib.Tactic.Common
set_option autoImplicit false

/-!
`getopt` of unistd.h, for options of one letter. As in glibc, what is neither an
option nor the argument of one is passed over, wherever it stands.
-/

namespace GetOpt

/-- Where the next call goes on: in the rest of an element, or else with the
elements after it. -/
structure State where
  nextchar : List UInt8
  args : List (List UInt8)

/-- `none` for an element that ends the options is `-1`; an option comes with
its `optarg`. -/
abbrev Found := UInt8 × Option (List UInt8)

def bad : Found := (63,none)

/-- Whether a letter of the option string wants an argument; the option strings
meant here have no `::` and do not begin with `+`, `-` or `:`. -/
def wants : List UInt8 → UInt8 → Option Bool
  | [], _ => none
  | x :: rest, c => if x = c ∧ c ≠ 58 then some (rest.head? == some 58) else wants rest c

section Calls

variable (optstring : List UInt8)

def letter (c : UInt8) (cluster : List UInt8) (args : List (List UInt8)) : Found × State :=
  match wants optstring c with
  | none => (bad,⟨cluster,args⟩)
  | some false => ((c,none),⟨cluster,args⟩)
  | some true =>
      match cluster, args with
      | [], [] => (bad,⟨[],[]⟩)
      | [], a :: args => ((c,some a),⟨[],args⟩)
      | x :: cluster, args => ((c,some (x :: cluster)),⟨[],args⟩)

def element : List (List UInt8) → Option (Found × State)
  | [] => none
  | (45 :: c :: cluster) :: args =>
      if c = 45 ∧ cluster = [] then none else some (letter optstring c cluster args)
  | _ :: args => element args

def getopt (s : State) : Option (Found × State) :=
  match s.nextchar with
  | c :: cluster => some (letter optstring c cluster s.args)
  | [] => element optstring s.args

end Calls

def State.size (s : State) : Nat := s.nextchar.length + (s.args.map fun a => a.length+1).sum

section Progress

variable {optstring : List UInt8} {s s' : State} {o : Found}

theorem letter_size (c : UInt8) (cluster : List UInt8) (args : List (List UInt8)) :
    (letter optstring c cluster args).2.size ≤
      cluster.length + (args.map fun a => a.length+1).sum := by
  unfold letter
  split
  · exact Nat.le_refl _
  · exact Nat.le_refl _
  · split
    · exact Nat.le_refl _
    · simp [State.size]
    · simp [State.size]

theorem element_size {args : List (List UInt8)} (h : element optstring args = some (o,s')) :
    s'.size < (args.map fun a => a.length+1).sum := by
  induction args using element.induct with
  | case1 => cases h
  | case2 c cluster args hend => simp [element,hend] at h
  | case3 c cluster args hend =>
    simp only [element,hend,if_false,Option.some.injEq] at h
    have hsize : s'.size ≤ _ := h ▸ letter_size c cluster args
    simp only [List.map_cons,List.length_cons,List.sum_cons]
    omega
  | case4 arg args hno ih =>
    rw [element] at h
    · have hlt := ih h
      simp only [List.map_cons,List.sum_cons]
      omega
    · exact hno

/-- Every call takes something away. -/
theorem getopt_size (h : getopt optstring s = some (o,s')) : s'.size < s.size := by
  unfold getopt at h
  split at h
  · rename_i c cluster hnext
    have hsize : s'.size ≤ _ := Option.some.inj h ▸ letter_size c cluster s.args
    simp only [State.size,hnext,List.length_cons] at hsize ⊢
    omega
  · rename_i hnext
    have hlt := element_size h
    simp only [State.size,hnext,List.length_nil] at hlt ⊢
    omega

end Progress

/-- All that a loop over `getopt` comes by. -/
def getopts (optstring : List UInt8) (s : State) : List Found :=
  match _ : getopt optstring s with
  | none => []
  | some (o,s') => o :: getopts optstring s'
termination_by s.size
decreasing_by exact getopt_size ‹_›

def whileGetopt {σ ε : Type} (optstring : List UInt8) (body : σ → Found → Except ε σ) (s : State)
    (x : σ) : Except ε σ :=
  match _ : getopt optstring s with
  | none => .ok x
  | some (o,s') =>
      match body x o with
      | .error e => .error e
      | .ok x => whileGetopt optstring body s' x
termination_by s.size
decreasing_by exact getopt_size ‹_›

inductive Spelled (optstring : List UInt8) : List Found → State → Prop where
  | nil : Spelled optstring [] ⟨[],[]⟩
  | ends (args : List (List UInt8)) : Spelled optstring [] ⟨[],[45,45] :: args⟩
  | operand {os : List Found} {arg : List UInt8} {args : List (List UInt8)} :
      (∀ c cluster, arg ≠ 45 :: c :: cluster) → Spelled optstring os ⟨[],args⟩ →
      Spelled optstring os ⟨[],arg :: args⟩
  | enter {os : List Found} {c : UInt8} {cluster : List UInt8} {args : List (List UInt8)} :
      ¬ (c = 45 ∧ cluster = []) → Spelled optstring os ⟨c :: cluster,args⟩ →
      Spelled optstring os ⟨[],(45 :: c :: cluster) :: args⟩
  | flag {os : List Found} {c : UInt8} {cluster : List UInt8} {args : List (List UInt8)} :
      wants optstring c = some false → Spelled optstring os ⟨cluster,args⟩ →
      Spelled optstring ((c,none) :: os) ⟨c :: cluster,args⟩
  | attached {os : List Found} {c : UInt8} {a : List UInt8} {args : List (List UInt8)} :
      wants optstring c = some true → a ≠ [] → Spelled optstring os ⟨[],args⟩ →
      Spelled optstring ((c,some a) :: os) ⟨c :: a,args⟩
  | separate {os : List Found} {c : UInt8} {a : List UInt8} {args : List (List UInt8)} :
      wants optstring c = some true → Spelled optstring os ⟨[],args⟩ →
      Spelled optstring ((c,some a) :: os) ⟨[c],a :: args⟩
  | missing {c : UInt8} : wants optstring c = some true → Spelled optstring [bad] ⟨[c],[]⟩
  | unknown {os : List Found} {c : UInt8} {cluster : List UInt8} {args : List (List UInt8)} :
      wants optstring c = none → Spelled optstring os ⟨cluster,args⟩ →
      Spelled optstring (bad :: os) ⟨c :: cluster,args⟩

section Grammar

variable {optstring : List UInt8} {s s' : State} {o : Found} {os : List Found}

theorem getopts_nil (h : getopt optstring s = none) : getopts optstring s = [] := by
  rw [getopts]
  split
  · rfl
  · rename_i o s' h'
    rw [h] at h'
    cases h'

theorem getopts_cons (h : getopt optstring s = some (o,s')) :
    getopts optstring s = o :: getopts optstring s' := by
  rw [getopts]
  split
  · rename_i h'
    rw [h] at h'
    cases h'
  · rename_i o' s'' h'
    rw [h] at h'
    cases h'
    rfl

theorem getopts_congr (h : getopt optstring s = getopt optstring s') :
    getopts optstring s = getopts optstring s' := by
  cases hs : getopt optstring s with
  | none => rw [getopts_nil hs,getopts_nil (h ▸ hs)]
  | some r =>
    obtain ⟨o,r⟩ := r
    rw [getopts_cons hs]
    exact (getopts_cons (h ▸ hs)).symm

theorem getopts_letter {c : UInt8} {cluster : List UInt8} {args : List (List UInt8)}
    (h : letter optstring c cluster args = (o,s')) :
    getopts optstring ⟨c :: cluster,args⟩ = o :: getopts optstring s' :=
  getopts_cons (congrArg some h)

theorem element_operand {arg : List UInt8} {args : List (List UInt8)}
    (h : ∀ c cluster, arg ≠ 45 :: c :: cluster) :
    element optstring (arg :: args) = element optstring args := by
  rw [element]
  exact h

theorem Spelled.found (h : Spelled optstring os s) : getopts optstring s = os := by
  induction h with
  | nil => exact getopts_nil rfl
  | ends args => exact getopts_nil (by simp [getopt,element])
  | operand harg _ ih =>
    rw [← ih]
    exact getopts_congr (element_operand harg)
  | @enter _ c cluster args hend _ ih =>
    rw [← ih]
    exact getopts_congr (by simp [getopt,element,hend])
  | @flag os c cluster args hw _ ih =>
    have hl : letter optstring c cluster args = ((c,none),⟨cluster,args⟩) := by
      simp only [letter,hw]
    rw [getopts_letter hl,ih]
  | @attached os c a args hw ha _ ih =>
    obtain ⟨x,a,rfl⟩ := List.exists_cons_of_ne_nil ha
    have hl : letter optstring c (x :: a) args = ((c,some (x :: a)),⟨[],args⟩) := by
      simp only [letter,hw]
    rw [getopts_letter hl,ih]
  | @separate os c a args hw _ ih =>
    have hl : letter optstring c [] (a :: args) = ((c,some a),⟨[],args⟩) := by
      simp only [letter,hw]
    rw [getopts_letter hl,ih]
  | @missing c hw =>
    have hl : letter optstring c [] [] = (bad,⟨[],[]⟩) := by simp only [letter,hw]
    have hnil : getopts optstring ⟨[],[]⟩ = [] := getopts_nil rfl
    rw [getopts_letter hl,hnil]
  | @unknown os c cluster args hw _ ih =>
    have hl : letter optstring c cluster args = (bad,⟨cluster,args⟩) := by
      simp only [letter,hw]
    rw [getopts_letter hl,ih]

theorem spelled_letter {c : UInt8} {cluster : List UInt8} {args : List (List UInt8)}
    (h : letter optstring c cluster args = (o,s')) (hs : Spelled optstring os s') :
    Spelled optstring (o :: os) ⟨c :: cluster,args⟩ := by
  unfold letter at h
  split at h
  · rename_i hw
    cases h
    exact .unknown hw hs
  · rename_i hw
    cases h
    exact .flag hw hs
  · rename_i hw
    split at h
    · cases h
      have hos : os = [] := hs.found.symm.trans (getopts_nil rfl)
      rw [hos]
      exact .missing hw
    · cases h
      exact .separate hw hs
    · cases h
      exact .attached hw (List.cons_ne_nil _ _) hs

theorem spelled_element (args : List (List UInt8)) :
    match element optstring args with
    | none => Spelled optstring [] ⟨[],args⟩
    | some (o,s') => ∀ os, Spelled optstring os s' → Spelled optstring (o :: os) ⟨[],args⟩ := by
  induction args using element.induct with
  | case1 => exact .nil
  | case2 c cluster args hend =>
    obtain ⟨rfl,rfl⟩ := hend
    exact .ends args
  | case3 c cluster args hend =>
    simp only [element,hend,if_false]
    exact fun os hs => .enter hend (spelled_letter rfl hs)
  | case4 arg args hno ih =>
    rw [element_operand hno]
    cases he : element optstring args with
    | none =>
      rw [he] at ih
      exact .operand hno ih
    | some r =>
      rw [he] at ih
      exact fun os hs => .operand hno (ih os hs)

theorem spelled (s : State) : Spelled optstring (getopts optstring s) s := by
  induction s using getopts.induct optstring with
  | case1 s h =>
    rw [getopts_nil h]
    obtain ⟨_ | ⟨c,cluster⟩,args⟩ := s
    · have he : element optstring args = none := h
      simpa only [he] using @spelled_element optstring args
    · cases h
  | case2 s o s' h ih =>
    rw [getopts_cons h]
    obtain ⟨_ | ⟨c,cluster⟩,args⟩ := s
    · have he : element optstring args = some (o,s') := h
      have hs := @spelled_element optstring args
      simp only [he] at hs
      exact hs _ ih
    · exact spelled_letter (Option.some.inj h) ih

theorem Spelled.extend {optstring' : List UInt8}
    (hsub : ∀ c b, wants optstring c = some b → wants optstring' c = some b)
    (h : Spelled optstring os s) (hgood : bad ∉ os) : Spelled optstring' os s := by
  induction h with
  | nil => exact .nil
  | ends args => exact .ends args
  | operand harg _ ih => exact .operand harg (ih hgood)
  | enter hend _ ih => exact .enter hend (ih hgood)
  | flag hw _ ih => exact .flag (hsub _ _ hw) (ih (List.not_mem_of_not_mem_cons hgood))
  | attached hw ha _ ih =>
    exact .attached (hsub _ _ hw) ha (ih (List.not_mem_of_not_mem_cons hgood))
  | separate hw _ ih => exact .separate (hsub _ _ hw) (ih (List.not_mem_of_not_mem_cons hgood))
  | missing hw => exact absurd List.mem_cons_self hgood
  | unknown hw _ ih => exact absurd List.mem_cons_self hgood

theorem whileGetopt_eq {σ ε : Type} {body : σ → Found → Except ε σ} (s : State) (x : σ) :
    whileGetopt optstring body s x = (getopts optstring s).foldlM body x := by
  induction s, x using whileGetopt.induct optstring body with
  | case1 s x h =>
    rw [whileGetopt,getopts_nil h]
    split
    · rfl
    · rename_i h'
      rw [h] at h'
      cases h'
  | case2 s x o s' h e hbody =>
    rw [getopts_cons h,List.foldlM_cons,hbody,whileGetopt]
    split
    · rename_i h'
      rw [h] at h'
      cases h'
    · rename_i o' s'' h'
      rw [h] at h'
      cases h'
      rw [hbody]
      rfl
  | case3 s x o s' h x' hbody ih =>
    rw [getopts_cons h,List.foldlM_cons,hbody,whileGetopt]
    split
    · rename_i h'
      rw [h] at h'
      cases h'
    · rename_i o' s'' h'
      rw [h] at h'
      cases h'
      rw [hbody]
      exact ih

end Grammar

end GetOpt
