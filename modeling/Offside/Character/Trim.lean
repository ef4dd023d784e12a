import Offside.Character.Class

/-!
# Trimming and lines

Trimming a class of characters from the ends of a text, and cutting a text at its
first line break. Everything works on the list of characters of a text; the
`String` forms at the end are what the rest of the library calls.
-/

set_option autoImplicit false

namespace Offside.Character

/-- `cs` without its trailing characters in `p`. -/
def trimEnd (p : Char → Bool) (cs : List Char) : List Char :=
  (cs.reverse.dropWhile p).reverse

/-- `cs` without its leading and trailing characters in `p`. -/
def trim (p : Char → Bool) (cs : List Char) : List Char :=
  trimEnd p (cs.dropWhile p)

/-- A run of characters ends where a character of another class follows. -/
theorem takeWhile_append_of_stop {α : Type} {p : α → Bool} {cs rest : List α}
    (hcs : ∀ c ∈ cs, p c) (hrest : ∀ c ∈ rest.head?, p c = false) :
    (cs ++ rest).takeWhile p = cs := by
  rw [List.takeWhile_append_of_pos hcs]
  cases rest with
  | nil => rw [List.takeWhile_nil, List.append_nil]
  | cons c rest =>
    rw [List.takeWhile_cons_of_neg (by simp [hrest c rfl]), List.append_nil]

theorem dropWhile_append_of_stop {α : Type} {p : α → Bool} {cs rest : List α}
    (hcs : ∀ c ∈ cs, p c) (hrest : ∀ c ∈ rest.head?, p c = false) :
    (cs ++ rest).dropWhile p = rest := by
  rw [List.dropWhile_append_of_pos hcs]
  cases rest with
  | nil => rfl
  | cons c rest => rw [List.dropWhile_cons_of_neg (by simp [hrest c rfl])]

/-- Trimming the end of a text stops at the last character that is not to be trimmed. -/
theorem trimEnd_append_of_stop {p : Char → Bool} {cs rest : List Char}
    (hrest : ∀ c ∈ rest, p c = true) (hcs : ∀ c ∈ cs.getLast?, p c = false) :
    trimEnd p (cs ++ rest) = cs := by
  have hlast : ∀ c ∈ cs.reverse.head?, p c = false := by
    rwa [List.head?_reverse]
  have hreverse : ∀ c ∈ rest.reverse, p c = true := fun c hc => hrest c (List.mem_reverse.1 hc)
  rw [trimEnd, List.reverse_append, dropWhile_append_of_stop hreverse hlast, List.reverse_reverse]

/-- Trimming takes off what surrounds a text whose ends are not to be trimmed. -/
theorem trim_between {p : Char → Bool} {xs ys zs : List Char} (hxs : ∀ c ∈ xs, p c = true)
    (hzs : ∀ c ∈ zs, p c = true) (hne : ys ≠ []) (hhead : ∀ c ∈ ys.head?, p c = false)
    (hlast : ∀ c ∈ ys.getLast?, p c = false) : trim p (xs ++ ys ++ zs) = ys := by
  have hfront : ∀ c ∈ (ys ++ zs).head?, p c = false := by
    obtain ⟨d, ys, rfl⟩ := List.exists_cons_of_ne_nil hne
    exact hhead
  rw [trim, List.append_assoc, dropWhile_append_of_stop hxs hfront,
    trimEnd_append_of_stop hzs hlast]

theorem exists_eq_trimEnd_append (p : Char → Bool) (cs : List Char) :
    ∃ zs, (∀ c ∈ zs, p c = true) ∧ cs = trimEnd p cs ++ zs := by
  refine ⟨(cs.reverse.takeWhile p).reverse, ?_, ?_⟩
  · intro c hc
    exact List.all_eq_true.1 List.all_takeWhile c (List.mem_reverse.1 hc)
  · rw [trimEnd, ← List.reverse_append, List.takeWhile_append_dropWhile, List.reverse_reverse]

/-- A text is what is left of it by trimming, between characters that are trimmed. -/
theorem exists_eq_trim_between (p : Char → Bool) (cs : List Char) :
    ∃ xs zs, (∀ c ∈ xs, p c = true) ∧ (∀ c ∈ zs, p c = true) ∧ cs = xs ++ trim p cs ++ zs := by
  obtain ⟨zs, hzs, hback⟩ := exists_eq_trimEnd_append p (cs.dropWhile p)
  refine ⟨cs.takeWhile p, zs, fun c hc => List.all_eq_true.1 List.all_takeWhile c hc, hzs, ?_⟩
  rw [List.append_assoc, trim, ← hback, List.takeWhile_append_dropWhile]

/-- What is to be trimmed does not matter around a text that is trimmed. -/
theorem trim_append_append {p : Char → Bool} {xs zs : List Char} (hxs : ∀ c ∈ xs, p c = true)
    (hzs : ∀ c ∈ zs, p c = true) (cs : List Char) : trim p (xs ++ cs ++ zs) = trim p cs := by
  have hback : ∀ cs, trimEnd p (cs ++ zs) = trimEnd p cs := by
    intro cs
    have hreverse : ∀ c ∈ zs.reverse, p c = true := fun c hc => hzs c (List.mem_reverse.1 hc)
    rw [trimEnd, List.reverse_append, List.dropWhile_append_of_pos hreverse, trimEnd]
  rw [trim, List.append_assoc, List.dropWhile_append_of_pos hxs, List.dropWhile_append]
  split
  · next hcs =>
    have hdrop : cs.dropWhile p = [] := List.isEmpty_iff.1 hcs
    have hzs' := dropWhile_append_of_stop hzs (by simp : ∀ c ∈ [].head?, p c = false)
    rw [List.append_nil] at hzs'
    rw [hzs', trim, hdrop]
  · rw [hback, trim]

theorem eq_false_of_mem_head?_dropWhile {p : Char → Bool} {cs : List Char} {c : Char}
    (h : c ∈ (cs.dropWhile p).head?) : p c = false := by
  have hnot := List.head?_dropWhile_not p cs
  rw [Option.mem_def.1 h] at hnot
  exact hnot

/-- A trimmed text starts with nothing that is to be trimmed. -/
theorem eq_false_of_mem_head?_trim {p : Char → Bool} {cs : List Char} {c : Char}
    (h : c ∈ (trim p cs).head?) : p c = false := by
  obtain ⟨zs, -, hcs⟩ := exists_eq_trimEnd_append p (cs.dropWhile p)
  have hhead : c ∈ (cs.dropWhile p).head? := by
    rw [hcs, List.head?_append]
    exact Option.mem_def.2 (Option.or_eq_some_iff.2 (.inl h))
  exact eq_false_of_mem_head?_dropWhile hhead

/-- A trimmed text ends with nothing that is to be trimmed. -/
theorem eq_false_of_mem_getLast?_trim {p : Char → Bool} {cs : List Char} {c : Char}
    (h : c ∈ (trim p cs).getLast?) : p c = false := by
  rw [trim, trimEnd, List.getLast?_reverse] at h
  exact eq_false_of_mem_head?_dropWhile h

/-- Trimming twice is trimming once. -/
theorem trim_trim (p : Char → Bool) (cs : List Char) : trim p (trim p cs) = trim p cs := by
  obtain ⟨xs, zs, hxs, hzs, hcs⟩ := exists_eq_trim_between p cs
  have htrim := trim_append_append hxs hzs (trim p cs)
  rw [← hcs] at htrim
  exact htrim.symm

theorem mem_of_mem_trim {p : Char → Bool} {cs : List Char} {c : Char} (h : c ∈ trim p cs) :
    c ∈ cs := by
  rw [trim, trimEnd, List.mem_reverse] at h
  have hmem := (List.dropWhile_sublist p).mem h
  rw [List.mem_reverse] at hmem
  exact (List.dropWhile_sublist p).mem hmem

/-- A text stays as it is if neither of its ends is to be trimmed. -/
theorem trim_eq_self {p : Char → Bool} {cs : List Char} (hhead : ∀ c ∈ cs.head?, p c = false)
    (hlast : ∀ c ∈ cs.getLast?, p c = false) : trim p cs = cs := by
  -- Both ends are trimmed by the same function, once on the reverse.
  have hdrop : ∀ {cs : List Char}, (∀ c ∈ cs.head?, p c = false) → cs.dropWhile p = cs := by
    intro cs h
    cases cs with
    | nil => rfl
    | cons c cs => rw [List.dropWhile_cons_of_neg (by simp [h c rfl])]
  have hreverse : ∀ c ∈ cs.reverse.head?, p c = false := by
    rwa [List.head?_reverse]
  rw [trim, trimEnd, hdrop hhead, hdrop hreverse, List.reverse_reverse]

/-- `cs` without its first character, when that character is `c`. -/
def dropOne (c : Char) : List Char → List Char
  | [] => []
  | d :: cs => if d = c then cs else d :: cs

/-- The first line of a text, without its line break. -/
def line (cs : List Char) : List Char :=
  cs.takeWhile (· ≠ '\n')

/-- What follows the first line of a text, from its line break on. -/
def afterLine (cs : List Char) : List Char :=
  cs.dropWhile (· ≠ '\n')

/-- What follows `lit` when the text starts with it. -/
def after? : (lit cs : List Char) → Option (List Char)
  | [], cs => some cs
  | _ :: _, [] => none
  | l :: lit, c :: cs => if l = c then after? lit cs else none

theorem after?_eq_some_iff {lit cs rest : List Char} :
    after? lit cs = some rest ↔ cs = lit ++ rest := by
  induction lit generalizing cs with
  | nil => simp [after?, eq_comm]
  | cons l lit ih =>
    cases cs with
    | nil => simp [after?]
    | cons c cs =>
      by_cases h : l = c
      · simp [after?, h, ih]
      · simp [after?, h, Ne.symm h]

/-- `s` without the spaces at its ends. -/
def trimSpaces (s : String) : String :=
  String.ofList (trim isSpace s.toList)

/-- `s` without its leading spaces. -/
def trimLeadingSpaces (s : String) : String :=
  String.ofList (s.toList.dropWhile isSpace)

/-- `s` without its trailing spaces. -/
def trimTrailingSpaces (s : String) : String :=
  String.ofList (trimEnd isSpace s.toList)

/-- `s` without the blank characters at its ends. -/
def trimBlanks (s : String) : String :=
  String.ofList (trim isBlank s.toList)

/-- A run of `n` spaces. -/
def spaces (n : Nat) : String :=
  String.ofList (List.replicate n ' ')

end Offside.Character
