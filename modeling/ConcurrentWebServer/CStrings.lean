import Mathlib.Data.List.Infix
import Mathlib.Data.List.TakeDrop
import Mathlib.Data.List.TakeWhile
import Mathlib.Tactic.Common
set_option autoImplicit false

/-!
NUL-terminated strings in byte arrays, and the functions of string.h,
strings.h and stdio.h on them. An array is the list of its bytes; a string is
the list of the bytes before the NUL.
-/

namespace CStrings

def ascii (s : String) : List UInt8 := s.toList.map fun c => c.toNat.toUInt8

def cstr (a : List UInt8) : List UInt8 := a.takeWhile (· != 0)

def poke (a : List UInt8) (i : Nat) (c : UInt8) : List UInt8 := a.take i ++ c :: a.drop (i+1)

def strcpy (a s : List UInt8) : List UInt8 := s ++ 0 :: a.drop (s.length+1)

theorem poke_append (d r : List UInt8) (c : UInt8) :
    poke (d ++ r) d.length c = d ++ c :: r.drop 1 := by
  simp [poke,List.drop_append]

theorem strcpy_eq_poke (d old : List UInt8) :
    poke (d ++ old.drop d.length) d.length 0 = strcpy old d := by
  rw [poke_append,List.drop_drop]
  rfl

theorem cstr_of_not_mem {s : List UInt8} (h : 0 ∉ s) : cstr s = s := by
  rw [cstr,List.takeWhile_eq_self_iff]
  intro c hc
  simpa [bne_iff_ne] using ne_of_mem_of_not_mem hc h

theorem not_mem_cstr (a : List UInt8) : 0 ∉ cstr a := by
  intro h
  simpa using List.mem_takeWhile_imp h

theorem cstr_append_zero (s r : List UInt8) : cstr (s ++ 0 :: r) = cstr s := by
  induction s with
  | nil => simp [cstr]
  | cons c s ih =>
    by_cases hc : c = 0
    · simp [cstr,hc]
    · simpa [cstr,hc] using ih

@[simp] theorem cstr_strcpy (a s : List UInt8) : cstr (strcpy a s) = cstr s :=
  cstr_append_zero s _

theorem cstr_eq_cons {a t : List UInt8} {x : UInt8} (hx : x ≠ 0) :
    cstr a = x :: t ↔ ∃ b, a = x :: b ∧ cstr b = t := by
  cases a with
  | nil => simp [cstr]
  | cons y b =>
    by_cases hy : y = 0
    · simp [cstr,hy,hx.symm]
    · simp [cstr,hy]

def strstr (s t : List UInt8) : Bool := s.tails.any fun r => t.isPrefixOf r

theorem strstr_mem {s t : List UInt8} {x : UInt8} (h : strstr s t = true) (hx : x ∈ t) : x ∈ s := by
  obtain ⟨r,hr,hp⟩ := List.any_eq_true.mp h
  have hsuffix := (List.mem_tails _ _).mp hr
  exact hsuffix.mem ((List.isPrefixOf_iff_prefix.mp hp).mem hx)

theorem strstr_iff {s t : List UInt8} : strstr s t = true ↔ t <:+: s := by
  rw [strstr,List.any_eq_true,List.infix_iff_prefix_suffix]
  constructor
  · rintro ⟨r,hr,hp⟩
    exact ⟨r,List.isPrefixOf_iff_prefix.mp hp,(List.mem_tails _ _).mp hr⟩
  · rintro ⟨r,hp,hr⟩
    exact ⟨r,(List.mem_tails _ _).mpr hr,List.isPrefixOf_iff_prefix.mpr hp⟩

theorem strstr_append_cons {s r t : List UInt8} {x : UInt8} (hx : x ∉ t.tail) :
    strstr (s ++ x :: r) t = true ↔ strstr s t = true ∨ t <+: x :: r ∨ strstr r t = true := by
  simp only [strstr_iff]
  constructor
  · rintro ⟨u,v,h⟩
    rw [List.append_assoc] at h
    rcases List.append_eq_append_iff.mp h with ⟨c,rfl,hc⟩ | ⟨c,rfl,hc⟩
    · rcases List.append_eq_append_iff.mp hc with ⟨d,rfl,_⟩ | ⟨d,rfl,hd⟩
      · exact .inl ⟨u,d,by simp⟩
      · cases d with
        | nil => exact .inl ⟨u,[],by simp⟩
        | cons y d =>
          obtain ⟨rfl,_⟩ := List.cons.inj hd
          cases c with
          | nil => exact .inr (.inl ⟨v,by rw [hd]; rfl⟩)
          | cons z c => simp at hx
    · cases c with
      | nil => exact .inr (.inl ⟨v,by rw [hc]; rfl⟩)
      | cons z c =>
        obtain ⟨rfl,hr⟩ := List.cons.inj hc
        exact .inr (.inr ⟨c,v,(List.append_assoc _ _ _).trans hr.symm⟩)
  · rintro (h | h | h)
    · exact h.trans (List.prefix_append _ _).isInfix
    · exact h.isInfix.trans (List.suffix_append _ _).isInfix
    · exact h.trans ((List.suffix_cons x r).trans (List.suffix_append s _)).isInfix

def tolower (c : UInt8) : UInt8 := if 65 ≤ c && c ≤ 90 then c+32 else c

def strcaseeq (s t : List UInt8) : Bool := s.map tolower == t.map tolower

def isspace (c : UInt8) : Bool := 9 ≤ c && c ≤ 13 || c == 32

theorem isspace_digit {c : UInt8} (h : 48 ≤ c) : isspace c = false := by
  simp only [isspace]
  grind

def scanToken (s : List UInt8) : Option (List UInt8 × List UInt8) :=
  match s.dropWhile isspace with
  | [] => none
  | r => some (r.span fun b => !isspace b)

/-- `sscanf(s, "%s %s %s", a, b, c)`: it stops at the first token that is
missing, and leaves the arrays from there on as they are. -/
def sscanf3 (s a b c : List UInt8) : List UInt8 × List UInt8 × List UInt8 :=
  match scanToken s with
  | none => (a,b,c)
  | some (t,r) =>
      match scanToken r with
      | none => (strcpy a t,b,c)
      | some (u,r) =>
          match scanToken r with
          | none => (strcpy a t,strcpy b u,c)
          | some (v,_) => (strcpy a t,strcpy b u,strcpy c v)

theorem scanToken_some {s t r : List UInt8} (h : scanToken s = some (t,r)) :
    t ≠ [] ∧ (∀ c ∈ t, isspace c = false) ∧ ∃ b, (∀ c ∈ b, isspace c = true) ∧ s = b ++ t ++ r := by
  rw [scanToken] at h
  cases hd : s.dropWhile isspace with
  | nil => simp [hd] at h
  | cons c u =>
    have hsplit := List.takeWhile_append_dropWhile (p := isspace) (l := s)
    have hc : isspace c = false := by
      have hh := List.head_dropWhile_not isspace (l := s) (by simp [hd])
      simpa [hd] using hh
    rw [hd] at h
    have hp := Option.some.inj h
    rw [List.span_eq_takeWhile_dropWhile] at hp
    cases hp
    refine ⟨by simp [hc],fun x hx => ?_,s.takeWhile isspace,fun x hx => ?_,?_⟩
    · simpa using List.mem_takeWhile_imp hx
    · exact List.mem_takeWhile_imp hx
    · rw [List.append_assoc,List.takeWhile_append_dropWhile,← hd,hsplit]

theorem scanToken_append {b t r : List UInt8} (hb : ∀ c ∈ b, isspace c = true) (hne : t ≠ [])
    (ht : ∀ c ∈ t, isspace c = false) (hr : ∀ c ∈ r.head?, isspace c = true) :
    scanToken (b ++ t ++ r) = some (t,r) := by
  obtain ⟨c,u,rfl⟩ := List.exists_cons_of_ne_nil hne
  have hdrop : (b ++ (c :: u) ++ r).dropWhile isspace = (c :: u) ++ r := by
    rw [List.append_assoc,List.dropWhile_append_of_pos hb,List.cons_append,
      List.dropWhile_cons_of_neg (by simp [ht c (by simp)])]
  have htake : ∀ x ∈ c :: u, (!isspace x) = true := fun x hx => by simp [ht x hx]
  have hstop : r.takeWhile (fun x => !isspace x) = [] ∧ r.dropWhile (fun x => !isspace x) = r := by
    cases r with
    | nil => exact ⟨rfl,rfl⟩
    | cons x r => simp [hr x rfl]
  rw [scanToken,hdrop,List.cons_append]
  simp only [List.span_eq_takeWhile_dropWhile]
  rw [← List.cons_append,List.takeWhile_append_of_pos htake,List.dropWhile_append_of_pos htake,
    hstop.1,hstop.2,List.append_nil]

theorem scanToken_not_mem {s t r : List UInt8} {x : UInt8} (hx : x ∉ s)
    (h : scanToken s = some (t,r)) : x ∉ t := by
  obtain ⟨_,_,b,_,rfl⟩ := scanToken_some h
  simp only [List.mem_append,not_or] at hx
  exact hx.1.2

theorem digit_range {n : Nat} {c : Char} (h : c ∈ Nat.toDigits 10 n) :
    48 ≤ c.toNat ∧ c.toNat ≤ 57 := by
  have hd := Nat.isDigit_of_mem_toDigits (by omega) (by omega) h
  simp only [Char.isDigit,Bool.and_eq_true,decide_eq_true_eq,ge_iff_le,
    UInt32.le_iff_toNat_le] at hd
  exact hd

theorem digit_toUInt8 {n : Nat} {c : Char} (h : c ∈ Nat.toDigits 10 n) :
    c.toNat.toUInt8.toNat = c.toNat := by
  obtain ⟨_,hle⟩ := digit_range h
  simp only [Nat.toUInt8,UInt8.toNat_ofNat']
  omega

theorem ascii_digit {n : Nat} {b : UInt8} (h : b ∈ ascii (toString n)) : 48 ≤ b ∧ b ≤ 57 := by
  rw [ascii,Nat.toString_eq_repr,Nat.toList_repr] at h
  obtain ⟨c,hc,rfl⟩ := List.mem_map.mp h
  have hrange := digit_range hc
  rw [UInt8.le_iff_toNat_le,UInt8.le_iff_toNat_le,digit_toUInt8 hc]
  exact hrange

theorem ascii_digits (n : Nat) :
    (ascii (toString n)).map (fun b => Char.ofNat b.toNat) = Nat.toDigits 10 n ∧
      13 ∉ ascii (toString n) := by
  constructor
  · rw [ascii,Nat.toString_eq_repr,Nat.toList_repr,List.map_map]
    refine (List.map_congr_left fun c hc => ?_).trans (List.map_id _)
    rw [Function.comp_apply,digit_toUInt8 hc,Char.ofNat_toNat,id]
  · intro h
    have hrange := (ascii_digit h).1
    revert hrange
    decide

theorem decimal_inj {m n : Nat} {r r' : List UInt8}
    (h : ascii (toString m) ++ 13 :: r = ascii (toString n) ++ 13 :: r') : m = n := by
  have htake : ∀ (k : Nat) (r : List UInt8),
      (ascii (toString k) ++ 13 :: r).takeWhile (· != 13) = ascii (toString k) := by
    intro k r
    rw [List.takeWhile_append_of_pos]
    · simp
    · intro x hx
      simpa using ne_of_mem_of_not_mem hx (ascii_digits k).2
  have hd := congrArg (List.takeWhile (· != 13)) h
  rw [htake,htake] at hd
  have hdigits := congrArg (List.map fun b => Char.ofNat b.toNat) hd
  rw [(ascii_digits m).1,(ascii_digits n).1] at hdigits
  have hparsed := congrArg (fun ds => Nat.ofDigitChars 10 ds 0) hdigits
  simpa using hparsed

end CStrings
