import Mathlib.Data.List.Basic
import Mathlib.Tactic.Common
set_option autoImplicit false

/-!
Records of fields as text: what Python's `csv.writer` writes, and what is read
back where a field may be quoted and each kind of line end is one.
-/

namespace CsvText

section Writing

def special (c : Char) : Bool := c == ',' || c == '\x22' || c == '\r' || c == '\n'

def doubled (s : List Char) : List Char :=
  s.flatMap fun c => if c == '\x22' then ['\x22','\x22'] else [c]

def writeField (s : List Char) : List Char :=
  if s.any special then '\x22' :: (doubled s ++ ['\x22']) else s

def writeTail : List (List Char) → List Char
  | [] => []
  | s :: fields => ',' :: (writeField s ++ writeTail fields)

def writeRecord : List (List Char) → List Char
  | [] => []
  | [[]] => ['\x22','\x22']
  | s :: fields => writeField s ++ writeTail fields

def writeRow (fields : List (List Char)) : List Char := writeRecord fields ++ ['\r','\n']

end Writing

section Reading

/-- At the start of a field, in one, between its quotes, or behind a quote. -/
inductive Place where
  | start : Place
  | plain : Place
  | quoted : Place
  | quote : Place
  deriving DecidableEq

/-- With the field and the fields of the record so far. Blank lines are skipped. -/
def readFrom : Place → List Char → List (List Char) → List Char → List (List (List Char))
  | .start,_,[],[] => []
  | _,field,fields,[] => [fields ++ [field]]
  | .quoted,field,fields,c :: text =>
      if c == '\x22' then readFrom .quote field fields text
      else readFrom .quoted (field ++ [c]) fields text
  | place,field,fields,c :: text =>
      if c == ',' then readFrom .start [] (fields ++ [field]) text
      else if c == '\r' || c == '\n' then
        if place == .start && fields.isEmpty then readFrom .start [] [] text
        else (fields ++ [field]) :: readFrom .start [] [] text
      else if c == '\x22' && place == .start then readFrom .quoted field fields text
      else if c == '\x22' && place == .quote then readFrom .quoted (field ++ [c]) fields text
      else readFrom .plain (field ++ [c]) fields text

def readRecords (text : List Char) : List (List (List Char)) := readFrom .start [] [] text

end Reading

section RoundTrip

variable {field : List Char} {fields : List (List Char)} {text : List Char}

theorem readFrom_inside (c : Char) :
    readFrom .quoted field fields (c :: text) =
      if c == '\x22' then readFrom .quote field fields text
      else readFrom .quoted (field ++ [c]) fields text := rfl

theorem readFrom_outside {place : Place} (hp : place ≠ .quoted) (c : Char) :
    readFrom place field fields (c :: text) =
      if c == ',' then readFrom .start [] (fields ++ [field]) text
      else if c == '\r' || c == '\n' then
        if place == .start && fields.isEmpty then readFrom .start [] [] text
        else (fields ++ [field]) :: readFrom .start [] [] text
      else if c == '\x22' && place == .start then readFrom .quoted field fields text
      else if c == '\x22' && place == .quote then readFrom .quoted (field ++ [c]) fields text
      else readFrom .plain (field ++ [c]) fields text := by
  cases place with
  | quoted => exact absurd rfl hp
  | start => cases fields <;> rfl
  | _ => rfl

theorem readFrom_plain {s : List Char} (hs : s.any special = false) :
    readFrom .plain field fields (s ++ text) = readFrom .plain (field ++ s) fields text := by
  induction s generalizing field with
  | nil => simp
  | cons c s ih =>
    simp only [List.any_cons,Bool.or_eq_false_iff,special] at hs
    obtain ⟨⟨⟨⟨hcomma,hquote⟩,hr⟩,hn⟩,hs⟩ := hs
    simp [readFrom_outside,hcomma,hquote,hr,hn,ih hs]

theorem readFrom_quoted (s : List Char) :
    readFrom .quoted field fields (doubled s ++ '\x22' :: text) =
      readFrom .quote (field ++ s) fields text := by
  induction s generalizing field with
  | nil => simp [doubled,readFrom_inside]
  | cons c s ih =>
    by_cases hc : c = '\x22'
    · subst hc
      have hd : doubled ('\x22' :: s) = '\x22' :: '\x22' :: doubled s := by simp [doubled]
      rw [hd]
      simp [readFrom_inside,readFrom_outside,ih]
    · have hd : doubled (c :: s) = c :: doubled s := by simp [doubled,hc]
      rw [hd]
      simp [readFrom_inside,hc,ih]

theorem readFrom_field (s : List Char) :
    ∃ place, (s ≠ [] → place ≠ .start) ∧ place ≠ .quoted ∧
      readFrom .start [] fields (writeField s ++ text) = readFrom place s fields text := by
  by_cases hs : s.any special = true
  · refine ⟨.quote,by simp,by simp,?_⟩
    rw [writeField,if_pos hs]
    simp only [List.cons_append,List.append_assoc,List.nil_append]
    have hstart : readFrom .start [] fields ('\x22' :: (doubled s ++ '\x22' :: text)) =
        readFrom .quoted [] fields (doubled s ++ '\x22' :: text) := by
      simp [readFrom_outside]
    rw [hstart,readFrom_quoted,List.nil_append]
  · rw [Bool.not_eq_true] at hs
    rw [writeField,if_neg (by simp [hs])]
    cases s with
    | nil => exact ⟨.start,by simp,by simp,rfl⟩
    | cons c s =>
      refine ⟨.plain,by simp,by simp,?_⟩
      simp only [List.any_cons,Bool.or_eq_false_iff,special] at hs
      obtain ⟨⟨⟨⟨hcomma,hquote⟩,hr⟩,hn⟩,hs⟩ := hs
      simp [readFrom_outside,hcomma,hquote,hr,hn,readFrom_plain hs]

theorem readFrom_comma {place : Place} (hp : place ≠ .quoted) :
    readFrom place field fields (',' :: text) = readFrom .start [] (fields ++ [field]) text := by
  simp [readFrom_outside hp]

theorem readFrom_end {place : Place} {c : Char} (hc : c = '\r' ∨ c = '\n') (hp : place ≠ .quoted)
    (hne : place ≠ .start ∨ fields ≠ []) :
    readFrom place field fields (c :: text) =
      (fields ++ [field]) :: readFrom .start [] [] text := by
  have hmore : (place == .start && fields.isEmpty) = false := by
    rcases hne with h | h <;> simp [h]
  rw [readFrom_outside hp,hmore]
  rcases hc with rfl | rfl <;> simp

theorem readFrom_tail {place : Place} {c : Char} (hc : c = '\r' ∨ c = '\n')
    (hp : place ≠ .quoted) (rest : List (List Char))
    (hne : place ≠ .start ∨ fields ≠ [] ∨ rest ≠ []) :
    readFrom place field fields (writeTail rest ++ c :: text) =
      (fields ++ field :: rest) :: readFrom .start [] [] text := by
  induction rest generalizing place field fields with
  | nil =>
    rw [writeTail,List.nil_append]
    exact readFrom_end hc hp (hne.imp_right fun h => h.resolve_right (fun h => h rfl))
  | cons s rest ih =>
    obtain ⟨place',_,hp',hread⟩ := @readFrom_field (fields ++ [field])
      (writeTail rest ++ c :: text) s
    rw [writeTail,List.cons_append,readFrom_comma hp,List.append_assoc,hread,
      ih hp' (.inr (.inl (by simp)))]
    simp

theorem readFrom_record {c : Char} (hc : c = '\r' ∨ c = '\n') {record : List (List Char)}
    (hne : record ≠ []) (text : List Char) :
    readRecords (writeRecord record ++ c :: text) = record :: readRecords text := by
  match record with
  | [] => exact absurd rfl hne
  | [[]] =>
    rcases hc with rfl | rfl <;>
      simp [readRecords,writeRecord,readFrom_inside,readFrom_outside]
  | (d :: s) :: rest =>
    obtain ⟨place,hstart,hp,hread⟩ := @readFrom_field []
      (writeTail rest ++ c :: text) (d :: s)
    rw [readRecords,writeRecord,List.append_assoc,hread,
      readFrom_tail hc hp rest (.inl (hstart (by simp))),List.nil_append,readRecords]
    simp
  | [] :: s :: rest =>
    rw [readRecords,writeRecord]
    · have hempty : writeField [] = [] := rfl
      rw [hempty,List.nil_append,readFrom_tail hc (by simp) (s :: rest) (.inr (.inr (by simp))),
        List.nil_append,readRecords]
    · simp

theorem readRecords_row {record : List (List Char)} (hne : record ≠ []) (text : List Char) :
    readRecords (writeRow record ++ text) = record :: readRecords text := by
  have hblank : readRecords ('\n' :: text) = readRecords text := by
    simp [readRecords,readFrom_outside]
  rw [writeRow,List.append_assoc,List.cons_append,readFrom_record (.inl rfl) hne]
  exact congrArg (record :: ·) hblank

theorem readRecords_rows {rows : List (List (List Char))} (hne : ∀ row ∈ rows, row ≠ []) :
    readRecords (rows.flatMap writeRow) = rows := by
  induction rows with
  | nil => rfl
  | cons row rows ih =>
    rw [List.flatMap_cons,readRecords_row (hne row List.mem_cons_self),
      ih fun r hr => hne r (List.mem_cons_of_mem row hr)]

end RoundTrip

end CsvText
