import Mathlib.Data.List.Basic
import Mathlib.Data.List.TakeWhile
import Mathlib.Tactic.Common
set_option autoImplicit false

/-! The methods of Python's `bytes` and `str` that split a text and read numbers in it. -/

namespace PythonText

section Decoding

def replacement : Char := Char.ofNat 0xFFFD

/-- How many bytes a character still needs, between which bounds the next of
them is, and the bits so far. -/
structure Pending where
  need : Nat
  lo : Nat
  hi : Nat
  bits : Nat
  deriving DecidableEq, Repr

def Pending.none : Pending := ⟨0,0x80,0xBF,0⟩

def lead (b : UInt8) : List Char × Pending :=
  let n := b.toNat
  if n < 0x80 then ([Char.ofNat n],.none)
  else if 0xC2 ≤ n ∧ n ≤ 0xDF then ([],⟨1,0x80,0xBF,n-0xC0⟩)
  else if n = 0xE0 then ([],⟨2,0xA0,0xBF,0⟩)
  else if 0xE1 ≤ n ∧ n ≤ 0xEF then ([],⟨2,0x80,if n = 0xED then 0x9F else 0xBF,n-0xE0⟩)
  else if n = 0xF0 then ([],⟨3,0x90,0xBF,0⟩)
  else if 0xF1 ≤ n ∧ n ≤ 0xF4 then ([],⟨3,0x80,if n = 0xF4 then 0x8F else 0xBF,n-0xF0⟩)
  else ([replacement],.none)

def decodeFrom : Pending → List UInt8 → List Char
  | p,[] => if p.need = 0 then [] else [replacement]
  | p,b :: l =>
      if p.need = 0 then (lead b).1 ++ decodeFrom (lead b).2 l
      else if p.lo ≤ b.toNat ∧ b.toNat ≤ p.hi then
        let bits := p.bits*64+b.toNat % 64
        if p.need = 1 then Char.ofNat bits :: decodeFrom .none l
        else decodeFrom ⟨p.need-1,0x80,0xBF,bits⟩ l
      else replacement :: (lead b).1 ++ decodeFrom (lead b).2 l

def decode (data : List UInt8) : List Char := decodeFrom .none data

def encode (s : String) : List UInt8 := s.toList.flatMap String.utf8EncodeChar

end Decoding

section Splitting

def isSpace (c : Char) : Bool :=
  let n := c.toNat
  9 ≤ n && n ≤ 13 || 0x1C ≤ n && n ≤ 0x20 || n == 0x85 || n == 0xA0 || n == 0x1680 ||
    0x2000 ≤ n && n ≤ 0x200A || n == 0x2028 || n == 0x2029 || n == 0x202F || n == 0x205F ||
    n == 0x3000

/-- The words so far, with the one that is being read. -/
def splitFrom : List Char → List Char → List (List Char)
  | word,[] => if word.isEmpty then [] else [word]
  | word,c :: l =>
      if isSpace c then
        if word.isEmpty then splitFrom [] l else word :: splitFrom [] l
      else splitFrom (word ++ [c]) l

def split (s : List Char) : List (List Char) := splitFrom [] s

def strip (s : List Char) : List Char :=
  ((s.dropWhile isSpace).reverse.dropWhile isSpace).reverse

def firstLine : List UInt8 → List UInt8
  | [] => []
  | c :: l => if c == 13 && l.head? == some 10 then [] else c :: firstLine l

theorem firstLine_line {l : List UInt8} (h : 13 ∉ l) (r : List UInt8) :
    firstLine (l ++ 13 :: 10 :: r) = l := by
  induction l with
  | nil => rfl
  | cons c l ih =>
    rw [List.mem_cons,not_or] at h
    have hc : (c == 13) = false := beq_eq_false_iff_ne.mpr (Ne.symm h.1)
    rw [List.cons_append,firstLine,hc,Bool.false_and,if_neg Bool.false_ne_true,ih h.2]

end Splitting

section Numbers

/-- The digits zero; the other nine follow each of them. -/
def zeros : List Nat :=
  [0x30,0x660,0x6F0,0x7C0,0x966,0x9E6,0xA66,0xAE6,0xB66,0xBE6,0xC66,0xCE6,0xD66,0xDE6,0xE50,0xED0,
   0xF20,0x1040,0x1090,0x17E0,0x1810,0x1946,0x19D0,0x1A80,0x1A90,0x1B50,0x1BB0,0x1C40,0x1C50,0xA620,
   0xA8D0,0xA900,0xA9D0,0xA9F0,0xAA50,0xABF0,0xFF10,0x104A0,0x10D30,0x11066,0x110F0,0x11136,0x111D0,
   0x112F0,0x11450,0x114D0,0x11650,0x116C0,0x11730,0x118E0,0x11950,0x11C50,0x11D50,0x11DA0,0x11F50,
   0x16A60,0x16AC0,0x16B50,0x1D7CE,0x1D7D8,0x1D7E2,0x1D7EC,0x1D7F6,0x1E140,0x1E2F0,0x1E4F0,0x1E950,
   0x1FBF0]

def digit (c : Char) : Option Nat :=
  (zeros.find? fun z => z ≤ c.toNat && c.toNat < z+10).map fun z => c.toNat-z

/-- Digits, where one underscore may stand between two of them. -/
def digits : Nat → List Char → Option Nat
  | n,[] => some n
  | n,'_' :: c :: l => (digit c).bind fun d => digits (n*10+d) l
  | n,c :: l => (digit c).bind fun d => digits (n*10+d) l

def unsigned : List Char → Option Nat
  | [] => none
  | c :: l => (digit c).bind fun d => digits d l

def parseInt (s : List Char) : Option Int :=
  match strip s with
  | '-' :: l => (unsigned l).map fun n => -(n : Int)
  | '+' :: l => (unsigned l).map fun n => (n : Int)
  | l => (unsigned l).map fun n => (n : Int)

end Numbers

end PythonText
