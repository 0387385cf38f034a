import ConcurrentWebServer.RequestModel
import Mathlib.Data.List.DropRight
set_option autoImplicit false

/-! The extension of a filename, and the type `request_get_filetype` gives it. -/

namespace ConcurrentWebServer.Requests
open Execution CStrings

section Extensions

def lastComponent (filename : List UInt8) : List UInt8 := filename.rtakeWhile (· != 47)

def extension (filename : List UInt8) : List UInt8 :=
  let name := lastComponent filename
  if 46 ∈ name then 46 :: name.rtakeWhile (· != 46) else []

def stem (filename : List UInt8) : List UInt8 :=
  filename.take (filename.length-(extension filename).length)

theorem rtakeWhile_append_cons (a : List UInt8) {b : List UInt8} {x : UInt8} (hb : x ∉ b) :
    (a ++ x :: b).rtakeWhile (· != x) = b := by
  have hrev : ∀ y ∈ b.reverse, (y != x) = true := by
    intro y hy
    simpa [bne_iff_ne] using ne_of_mem_of_not_mem (List.mem_reverse.mp hy) hb
  simp only [List.rtakeWhile,List.reverse_append,List.reverse_cons,List.append_assoc]
  rw [List.takeWhile_append_of_pos hrev]
  simp

theorem exists_last {l : List UInt8} {x : UInt8} (h : x ∈ l) :
    ∃ a b, l = a ++ x :: b ∧ x ∉ b := by
  obtain ⟨b,a,hl,hb⟩ := List.eq_append_cons_of_mem (List.mem_reverse.mpr h)
  have hrev := congrArg List.reverse hl
  rw [List.reverse_reverse] at hrev
  exact ⟨a.reverse,b.reverse,by simpa using hrev,by simpa using hb⟩

theorem lastComponent_no_slash (filename : List UInt8) : 47 ∉ lastComponent filename := by
  intro h
  have := List.mem_rtakeWhile_imp h
  simp at this

theorem extension_cases (filename : List UInt8) :
    extension filename = [] ∨
      ∃ t, extension filename = 46 :: t ∧ 46 ∉ t ∧ 47 ∉ t ∧ 46 :: t <:+ filename := by
  by_cases hdot : 46 ∈ lastComponent filename
  · obtain ⟨a,t,hname,ht⟩ := exists_last hdot
    refine .inr ⟨t,?_,ht,?_,?_⟩
    · have hlast := rtakeWhile_append_cons a ht
      simp only [extension,hdot,if_true]
      rw [hname,hlast]
    · have hslash := lastComponent_no_slash filename
      rw [hname] at hslash
      simp only [List.mem_append,List.mem_cons,not_or] at hslash
      exact hslash.2.2
    · have hsuffix : lastComponent filename <:+ filename := List.rtakeWhile_suffix _ _
      rw [hname] at hsuffix
      exact (List.suffix_append a _).trans hsuffix
  · exact .inl (by simp [extension,hdot])

theorem stem_append_extension (filename : List UInt8) :
    stem filename ++ extension filename = filename := by
  have hsuffix : extension filename <:+ filename := by
    rcases extension_cases filename with h | ⟨t,h,_,_,ht⟩
    · rw [h]
      exact List.nil_suffix
    · rwa [h]
  obtain ⟨s,hs⟩ := hsuffix
  have hlen := congrArg List.length hs
  rw [List.length_append] at hlen
  have htake : stem filename = s := by
    rw [stem,← hlen,Nat.add_sub_cancel]
    conv_lhs => rw [← hs]
    exact List.take_left
  rw [htake,hs]

theorem extension_append (a : List UInt8) {t : List UInt8} (h₁ : 46 ∉ t) (h₂ : 47 ∉ t) :
    extension (a ++ 46 :: t) = 46 :: t := by
  have hrev : ∀ y ∈ (46 :: t).reverse, (y != 47) = true := by
    intro y hy
    have hne : y ≠ 47 := by
      rintro rfl
      simp only [List.mem_reverse,List.mem_cons] at hy
      exact hy.elim (by decide) h₂
    simpa [bne_iff_ne] using hne
  obtain ⟨b,hb⟩ : ∃ b, lastComponent (a ++ 46 :: t) = b ++ 46 :: t := by
    refine ⟨(a.reverse.takeWhile (· != 47)).reverse,?_⟩
    simp only [lastComponent,List.rtakeWhile,List.reverse_append]
    rw [List.takeWhile_append_of_pos hrev,List.reverse_append,List.reverse_reverse]
  have hlast := rtakeWhile_append_cons b h₁
  simp [extension,hb,hlast]

theorem extension_under (dir filename : List UInt8) (h : 46 ∉ lastComponent dir) :
    extension (dir ++ extension filename) = extension filename := by
  rcases extension_cases filename with he | ⟨t,he,h₁,h₂,_⟩
  · rw [he,List.append_nil]
    simp [extension,h]
  · rw [he,extension_append dir h₁ h₂]

end Extensions

section Types

def Determined (filename : List UInt8) : Prop :=
  ∀ other, extension other = extension filename →
    requestGetFiletype other = requestGetFiletype filename

def Undisturbed (filename : List UInt8) : Prop :=
  requestGetFiletype filename = requestGetFiletype (extension filename)

/-- A text that occurs in front of the extension is looked for no sooner than one
that the extension starts with. -/
def Shielded (filename : List UInt8) : Prop :=
  (strstr (stem filename) (ascii ".html") = true → ascii ".html" <+: extension filename) ∧
  (strstr (stem filename) (ascii ".gif") = true →
    ascii ".html" <+: extension filename ∨ ascii ".gif" <+: extension filename) ∧
  (strstr (stem filename) (ascii ".jpg") = true → ascii ".html" <+: extension filename ∨
    ascii ".gif" <+: extension filename ∨ ascii ".jpg" <+: extension filename)

def filetypeOf (html gif jpg : Bool) : List UInt8 :=
  if html then ascii "text/html" else if gif then ascii "image/gif"
  else if jpg then ascii "image/jpeg" else ascii "text/plain"

theorem requestGetFiletype_eq (filename : List UInt8) :
    requestGetFiletype filename = filetypeOf (strstr filename (ascii ".html"))
      (strstr filename (ascii ".gif")) (strstr filename (ascii ".jpg")) := rfl

theorem strstr_filename (filename : List UInt8) {t : List UInt8} (h : 46 ∉ t) :
    strstr filename (46 :: t) =
      (strstr (stem filename) (46 :: t) || (46 :: t).isPrefixOf (extension filename)) := by
  have hsplit := stem_append_extension filename
  rw [Bool.eq_iff_iff,Bool.or_eq_true,List.isPrefixOf_iff_prefix]
  rcases extension_cases filename with he | ⟨r,he,hr,_,_⟩
  · rw [he,List.append_nil] at hsplit
    rw [he,hsplit]
    simp
  · rw [he] at hsplit
    have hdot : ¬ strstr r (46 :: t) = true := by
      intro hs
      exact hr (strstr_mem hs (List.mem_cons_self ..))
    have hfound : strstr (stem filename ++ 46 :: r) (46 :: t) = true ↔ _ := strstr_append_cons h
    rw [hsplit] at hfound
    rw [he,hfound]
    simp only [hdot,Bool.false_eq_true,or_false]

theorem strstr_extension (filename : List UInt8) {t : List UInt8} (h : 46 ∉ t) :
    strstr (extension filename) (46 :: t) = (46 :: t).isPrefixOf (extension filename) := by
  have hnil : 46 ∉ lastComponent [] := by decide
  have hself := extension_under [] filename hnil
  rw [List.nil_append] at hself
  have hempty : strstr [] (46 :: t) = false := rfl
  rw [strstr_filename (extension filename) h,stem,hself,Nat.sub_self,List.take_zero,hempty,
    Bool.false_or]

/-- What is found in front is masked by what is found first in the extension. -/
theorem filetypeOf_or : ∀ h g j h' g' j' : Bool,
    filetypeOf (h || h') (g || g') (j || j') = filetypeOf h' g' j' ↔
      (h = true → h' = true) ∧ (g = true → h' = true ∨ g' = true) ∧
        (j = true → h' = true ∨ g' = true ∨ j' = true) := by
  decide

theorem undisturbed_iff (filename : List UInt8) : Undisturbed filename ↔ Shielded filename := by
  have h₁ : 46 ∉ ascii "html" := by decide
  have h₂ : 46 ∉ ascii "gif" := by decide
  have h₃ : 46 ∉ ascii "jpg" := by decide
  rw [Undisturbed,requestGetFiletype_eq,requestGetFiletype_eq]
  change filetypeOf (strstr filename (46 :: ascii "html")) (strstr filename (46 :: ascii "gif"))
    (strstr filename (46 :: ascii "jpg")) = filetypeOf (strstr _ (46 :: ascii "html"))
    (strstr _ (46 :: ascii "gif")) (strstr _ (46 :: ascii "jpg")) ↔ _
  rw [strstr_filename filename h₁,strstr_filename filename h₂,strstr_filename filename h₃,
    strstr_extension filename h₁,strstr_extension filename h₂,strstr_extension filename h₃,
    filetypeOf_or]
  simp only [List.isPrefixOf_iff_prefix]
  rfl

theorem filetype_html {filename : List UInt8} (h : ascii ".html" <+: extension filename) :
    requestGetFiletype filename = ascii "text/html" := by
  have hstart : (46 :: ascii "html").isPrefixOf (extension filename) = true :=
    List.isPrefixOf_iff_prefix.mpr h
  have hfound : strstr filename (46 :: ascii "html") = true := by
    rw [strstr_filename filename (by decide),hstart,Bool.or_true]
  have hname : strstr filename (ascii ".html") = true := hfound
  simp [requestGetFiletype,hname]

theorem html_directory (filename : List UInt8) :
    requestGetFiletype (ascii ".html/" ++ extension filename) = ascii "text/html" := by
  have hfound : strstr (ascii ".html/" ++ extension filename) (ascii ".html") = true := by
    rw [strstr_iff]
    exact ⟨[],47 :: extension filename,rfl⟩
  simp [requestGetFiletype,hfound]

theorem determined_iff (filename : List UInt8) :
    Determined filename ↔ ascii ".html" <+: extension filename := by
  constructor
  · intro h
    have hdir := h _ (extension_under (ascii ".html/") filename (by decide))
    have hbare := h _ (extension_under [] filename (by decide))
    rw [html_directory] at hdir
    rw [List.nil_append,← hdir,requestGetFiletype] at hbare
    have hfound : strstr (extension filename) (46 :: ascii "html") = true := by
      change strstr (extension filename) (ascii ".html") = true
      by_contra hno
      rw [if_neg hno] at hbare
      split_ifs at hbare <;> revert hbare <;> decide
    rw [strstr_extension filename (by decide)] at hfound
    exact List.isPrefixOf_iff_prefix.mp hfound
  · intro h other ho
    rw [filetype_html h,filetype_html (ho ▸ h)]

/-- When the extension alone decides: for all filenames that have it, and for
the one at hand. -/
theorem filetype_of_extension (filename : List UInt8) :
    (Determined filename ↔ ascii ".html" <+: extension filename) ∧
      (Undisturbed filename ↔ Shielded filename) :=
  ⟨determined_iff filename,undisturbed_iff filename⟩

theorem html_in_the_middle :
    extension (ascii "./a.txt") = ascii ".txt" ∧ extension (ascii "./a.html.txt") = ascii ".txt" ∧
    requestGetFiletype (ascii "./a.txt") = ascii "text/plain" ∧
    requestGetFiletype (ascii "./a.html.txt") = ascii "text/html" ∧
    ¬ Determined (ascii "./a.txt") ∧ ¬ Undisturbed (ascii "./a.html.txt") := by
  refine ⟨rfl,rfl,rfl,rfl,?_,?_⟩
  · intro h
    have hsame := h (ascii "./a.html.txt") rfl
    revert hsame
    decide
  · rw [Undisturbed]
    decide

end Types

end ConcurrentWebServer.Requests
