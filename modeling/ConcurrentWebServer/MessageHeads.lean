import ConcurrentWebServer.CStrings
set_option autoImplicit false

/-! Messages that begin with a head: lines that end in CR LF, an empty one
behind them, and then the body. -/

namespace MessageHeads
open CStrings

def lineEnd : List UInt8 := [13,10]

def splitHead : List UInt8 → Option (List UInt8 × List UInt8)
  | [] => none
  | c :: r =>
      if [13,10,13,10] <+: c :: r then some ([],r.drop 3)
      else (splitHead r).map fun p => (c :: p.1,p.2)

def headLines : List UInt8 → List (List UInt8)
  | [] => [[]]
  | [c] => [[c]]
  | c :: d :: r =>
      if c = 13 ∧ d = 10 then [] :: headLines r
      else (headLines (d :: r)).modifyHead (c :: ·)

/-- The value of a line `name: value`. The case of the name does not count, and
neither do blanks before the value. -/
def fieldValue (name line : List UInt8) : Option (List UInt8) :=
  if strcaseeq (line.takeWhile (· != 58)) name then
    some (((line.dropWhile (· != 58)).drop 1).dropWhile isspace)
  else none

def decimal (s : List UInt8) : Option Nat :=
  if !s.isEmpty && s.all fun b => 48 ≤ b && b ≤ 57 then
    some (Nat.ofDigitChars 10 (s.map fun b => Char.ofNat b.toNat) 0)
  else none

/-- A head is a first line and fields, none of them with an LF in it and no
field empty. -/
structure Message where
  first : List UInt8
  fields : List (List UInt8)
  body : List UInt8
  first_lf : 10 ∉ first
  field_lf : ∀ l ∈ fields, 10 ∉ l
  field_ne : ∀ l ∈ fields, l ≠ []

namespace Message

def head (m : Message) : List UInt8 := m.first ++ (m.fields.map (lineEnd ++ ·)).flatten

def bytes (m : Message) : List UInt8 := m.head ++ lineEnd ++ lineEnd ++ m.body

end Message

section Lines
variable {l r : List UInt8}

theorem splitHead_line (hl : 10 ∉ l) : splitHead (l ++ 13 :: 10 :: r) =
    if lineEnd <+: r then some (l,r.drop 2)
    else (splitHead r).map fun p => (l ++ 13 :: 10 :: p.1,p.2) := by
  induction l with
  | nil =>
    by_cases hr : lineEnd <+: r
    · have hend : [13,10,13,10] <+: 13 :: 10 :: r := by simpa [lineEnd] using hr
      simp [splitHead,hend,hr]
    · have hend : ¬ [13,10,13,10] <+: 13 :: 10 :: r := by simpa [lineEnd] using hr
      have hlf : ¬ [13,10,13,10] <+: 10 :: r := by simp
      simp [splitHead,hend,hlf,hr,Function.comp_def]
  | cons c l ih =>
    simp only [List.mem_cons,not_or] at hl
    have hgo : ¬ [13,10,13,10] <+: c :: (l ++ 13 :: 10 :: r) := by
      cases l with
      | nil => simp
      | cons d l =>
        simp only [List.mem_cons,not_or] at hl
        simp [hl.2.1]
    rw [List.cons_append,splitHead,if_neg hgo,ih hl.2]
    by_cases hr : lineEnd <+: r
    · simp [hr]
    · simp [hr,Function.comp_def]

theorem headLines_line (hl : 10 ∉ l) : headLines (l ++ 13 :: 10 :: r) = l :: headLines r := by
  induction l with
  | nil => simp [headLines]
  | cons c l ih =>
    simp only [List.mem_cons,not_or] at hl
    obtain ⟨d,t,hd,ht⟩ : ∃ d t, d ≠ 10 ∧ l ++ 13 :: 10 :: r = d :: t := by
      cases l with
      | nil => exact ⟨13,10 :: r,by decide,rfl⟩
      | cons d l =>
        have hd : d ≠ 10 := by
          intro h
          simp [h] at hl
        exact ⟨d,l ++ 13 :: 10 :: r,hd,rfl⟩
    rw [List.cons_append,ht,headLines,if_neg (by simp [hd]),← ht,ih hl.2]
    rfl

theorem headLines_last (hl : 10 ∉ l) : headLines l = [l] := by
  induction l with
  | nil => rfl
  | cons c l ih =>
    cases l with
    | nil => rfl
    | cons d l =>
      simp only [List.mem_cons,not_or] at hl
      rw [headLines,if_neg (by simp [Ne.symm hl.2.1]),ih (by simp [hl.2])]
      rfl

end Lines

section Decoding

theorem splitHead_fields {first : List UInt8} {fields : List (List UInt8)} (body : List UInt8)
    (hfirst : 10 ∉ first) (hlf : ∀ l ∈ fields, 10 ∉ l) (hne : ∀ l ∈ fields, l ≠ []) :
    splitHead (first ++ (fields.map (lineEnd ++ ·)).flatten ++ lineEnd ++ lineEnd ++ body) =
      some (first ++ (fields.map (lineEnd ++ ·)).flatten,body) := by
  induction fields generalizing first with
  | nil =>
    have hline := splitHead_line (r := lineEnd ++ body) hfirst
    simpa [lineEnd] using hline
  | cons l fields ih =>
    simp only [List.mem_cons,forall_eq_or_imp] at hlf hne
    have hline := splitHead_line
      (r := l ++ (fields.map (lineEnd ++ ·)).flatten ++ lineEnd ++ lineEnd ++ body) hfirst
    have hmore :
        ¬ lineEnd <+: l ++ (fields.map (lineEnd ++ ·)).flatten ++ lineEnd ++ lineEnd ++ body := by
      cases l with
      | nil => exact absurd rfl hne.1
      | cons c l =>
        cases l with
        | nil => cases fields <;> simp [lineEnd]
        | cons d l =>
          have hd : d ≠ 10 := by
            intro h
            simp [h] at hlf
          simp [lineEnd,hd.symm]
    rw [if_neg hmore,ih hlf.1 hlf.2 hne.2] at hline
    simpa [lineEnd] using hline

theorem headLines_fields {first : List UInt8} {fields : List (List UInt8)}
    (hfirst : 10 ∉ first) (hlf : ∀ l ∈ fields, 10 ∉ l) :
    headLines (first ++ (fields.map (lineEnd ++ ·)).flatten) = first :: fields := by
  induction fields generalizing first with
  | nil => simpa using headLines_last hfirst
  | cons l fields ih =>
    simp only [List.mem_cons,forall_eq_or_imp] at hlf
    have hline := headLines_line (r := l ++ (fields.map (lineEnd ++ ·)).flatten) hfirst
    rw [ih hlf.1 hlf.2] at hline
    simpa [lineEnd] using hline

theorem splitHead_bytes (m : Message) : splitHead m.bytes = some (m.head,m.body) :=
  splitHead_fields m.body m.first_lf m.field_lf m.field_ne

theorem headLines_head (m : Message) : headLines m.head = m.first :: m.fields :=
  headLines_fields m.first_lf m.field_lf

theorem fieldValue_name {name value : List UInt8} (hn : 58 ∉ name)
    (hv : ∀ c ∈ value.head?, isspace c = false) :
    fieldValue name (name ++ 58 :: 32 :: value) = some value := by
  have hname : ∀ c ∈ name, (c != 58) = true := fun c hc => by
    simpa using ne_of_mem_of_not_mem hc hn
  have hvalue : value.dropWhile isspace = value := by
    cases value with
    | nil => rfl
    | cons c value => simp [hv c rfl]
  rw [fieldValue,List.takeWhile_append_of_pos hname,List.dropWhile_append_of_pos hname]
  simp [strcaseeq,isspace,hvalue]

theorem fieldValue_other {name other value : List UInt8} (hn : 58 ∉ other)
    (h : strcaseeq other name = false) : fieldValue name (other ++ 58 :: value) = none := by
  have hother : ∀ c ∈ other, (c != 58) = true := fun c hc => by
    simpa using ne_of_mem_of_not_mem hc hn
  rw [fieldValue,List.takeWhile_append_of_pos hother]
  simp [h]

theorem fieldValue_first {name line : List UInt8} {c d : UInt8} (hc : c ≠ 58)
    (h : tolower c ≠ tolower d) : fieldValue (d :: name) (c :: line) = none := by
  simp [fieldValue,strcaseeq,hc,h]

theorem decimal_digits (n : Nat) : decimal (ascii (toString n)) = some n := by
  have hdigits := (ascii_digits n).1
  have hne : ascii (toString n) ≠ [] := by
    intro h
    rw [h] at hdigits
    exact Nat.toDigits_ne_nil hdigits.symm
  have hall : (!(ascii (toString n)).isEmpty &&
      (ascii (toString n)).all fun b => 48 ≤ b && b ≤ 57) = true := by
    simp only [Bool.and_eq_true,Bool.not_eq_true',List.isEmpty_eq_false_iff,List.all_eq_true,
      decide_eq_true_eq]
    exact ⟨hne,fun b hb => ascii_digit hb⟩
  rw [decimal,if_pos hall,hdigits,Nat.ofDigitChars_ten_toDigits]

end Decoding

end MessageHeads
