import Offside.Proofs.Markup.Siblings

/-!
# The shapes of control structures

Every control structure has a pattern (`Control.pattern`): spaces, a keyword, what may follow
it, a colon and spaces. A pattern is a list of atoms, and a text matches it if it can be cut
into texts that match the atoms one after the other.

* `hasShape_iff_matches`: `Control.hasShape` decides the patterns.
* `candidate_of_matches`: the first characters of a text allow one structure at most. Patterns
  share their front, as `for` and `foreach` do, but what comes behind it tells them apart.
* `matches_pattern_iff_trim`: a pattern is matched by what stands between the spaces at the ends
  of a text.
-/

set_option autoImplicit false

namespace Offside

open Offside.Character

/-! ### Spaces at the ends of a text -/

namespace Character

theorem trimSpaces_trimSpaces (code : String) : trimSpaces (trimSpaces code) = trimSpaces code := by
  rw [trimSpaces, trimSpaces, String.toList_ofList, trim_trim]

theorem trimSpaces_trimLeadingSpaces (code : String) :
    trimSpaces (trimLeadingSpaces code) = trimSpaces code := by
  have hfront : ∀ c ∈ code.toList.takeWhile isSpace, isSpace c = true := fun c hc =>
    List.all_eq_true.1 List.all_takeWhile c hc
  have htrim := trim_append_append hfront (List.forall_mem_nil _) (code.toList.dropWhile isSpace)
  rw [List.append_nil, List.takeWhile_append_dropWhile] at htrim
  rw [trimSpaces, trimLeadingSpaces, String.toList_ofList, ← htrim, trimSpaces]

theorem trimSpaces_spaces (code : String) (m n : Nat) :
    trimSpaces (spaces m ++ code ++ spaces n) = trimSpaces code := by
  have hspaces : ∀ n, ∀ c ∈ List.replicate n ' ', isSpace c = true := by
    intro n c hc
    rw [List.eq_of_mem_replicate hc]
    rfl
  rw [trimSpaces, String.toList_append, String.toList_append, spaces, spaces, String.toList_ofList,
    String.toList_ofList, trim_append_append (hspaces m) (hspaces n), trimSpaces]

end Character

namespace Control

/-! ### Patterns -/

/-- A part of a pattern. -/
inductive Atom where
  /-- A text as it is written. -/
  | word (text : String)
  /-- Any number of characters of a class. -/
  | many (p : Char → Bool)
  /-- At least one character of a class. -/
  | several (p : Char → Bool)

/-- Whether a text is one that a part of a pattern stands for. -/
def Atom.Matches : Atom → List Char → Prop
  | word text, cs => cs = text.toList
  | many p, cs => ∀ c ∈ cs, p c = true
  | several p, cs => cs ≠ [] ∧ ∀ c ∈ cs, p c = true

/-- Whether a text can be cut into texts that match the parts of a pattern, in order. -/
def Matches : List Atom → List Char → Prop
  | [], cs => cs = []
  | atom :: atoms, cs =>
    ∃ front back, cs = front ++ back ∧ atom.Matches front ∧ Matches atoms back

/-- All characters but line breaks. -/
def isWild (c : Char) : Bool :=
  c != '\n'

/-- What a condition starts with. -/
def opensCondition (c : Char) : Bool :=
  c == ' ' || c == '('

/-- The pattern of a control structure between the spaces at its ends, up to its colon. -/
def body : Control → List Atom
  | ifBranch => [.word "if", .several opensCondition, .many isWild]
  | elseBranch => [.word "else", .many isSpace]
  | elseIfBranch =>
    [.word "else", .many isSpace, .word "if", .several opensCondition, .many isWild]
  | whileLoop => [.word "while", .many isSpace, .many isWild]
  | forLoop => [.word "for", .several opensCondition, .many isWild]
  | foreachLoop => [.word "foreach", .several opensCondition, .many isWild]
  | switchBlock => [.word "switch", .several opensCondition, .many isWild]
  | caseBranch => [.word "case", .many isSpace, .many isWild, .many isSpace]

/-- The pattern of a control structure. -/
def pattern (control : Control) : List Atom :=
  .many isSpace :: (control.body ++ [.word ":", .many isSpace])

section Matching

variable {atoms others : List Atom} {cs : List Char} {p q : Char → Bool}

theorem matches_append :
    Matches (atoms ++ others) cs ↔
      ∃ front back, cs = front ++ back ∧ Matches atoms front ∧ Matches others back := by
  induction atoms generalizing cs with
  | nil => simp [Matches]
  | cons atom atoms ih =>
    simp only [List.cons_append, Matches, ih]
    constructor
    · rintro ⟨front, -, rfl, hfront, middle, back, rfl, hmiddle, hback⟩
      exact ⟨front ++ middle, back, by simp, ⟨front, middle, rfl, hfront, hmiddle⟩, hback⟩
    · rintro ⟨-, back, rfl, ⟨front, middle, rfl, hfront, hmiddle⟩, hback⟩
      exact ⟨front, middle ++ back, by simp, hfront, middle, back, rfl, hmiddle, hback⟩

/-- A colon with spaces behind it. -/
theorem matches_colon :
    Matches [.word ":", .many isSpace] cs ↔ ∃ back, cs = ':' :: back ∧ ∀ c ∈ back, isSpace c := by
  simp [Matches, Atom.Matches]

/-- A run of characters goes on with characters of a smaller class. -/
theorem matches_many_many (h : ∀ c, p c = true → q c = true) :
    Matches (.many q :: .many p :: atoms) cs ↔ Matches (.many q :: atoms) cs := by
  constructor
  · rintro ⟨front, -, rfl, hfront, middle, back, rfl, hmiddle, hback⟩
    refine ⟨front ++ middle, back, by simp, ?_, hback⟩
    exact List.forall_mem_append.2 ⟨hfront, fun c hc => h c (hmiddle c hc)⟩
  · rintro ⟨front, back, rfl, hfront, hback⟩
    exact ⟨front, back, rfl, hfront, [], back, rfl, List.forall_mem_nil _, hback⟩

/-- A run of characters starts with characters of a smaller class. -/
theorem many_matches_many (h : ∀ c, p c = true → q c = true) :
    Matches (.many p :: .many q :: atoms) cs ↔ Matches (.many q :: atoms) cs := by
  constructor
  · rintro ⟨front, -, rfl, hfront, middle, back, rfl, hmiddle, hback⟩
    refine ⟨front ++ middle, back, by simp, ?_, hback⟩
    exact List.forall_mem_append.2 ⟨fun c hc => h c (hfront c hc), hmiddle⟩
  · rintro ⟨front, back, rfl, hfront, hback⟩
    exact ⟨[], front ++ back, rfl, List.forall_mem_nil _, front, back, rfl, hfront, hback⟩

theorem isWild_of_isSpace (c : Char) (h : isSpace c = true) : isWild c = true := by
  obtain rfl := beq_iff_eq.1 h
  decide

end Matching

/-! ### Shapes are patterns -/

section Shapes

variable {cs : List Char}

theorem endsInColon_iff :
    endsInColon cs = true ↔ Matches [.many isWild, .word ":", .many isSpace] cs := by
  have hwild : cs.contains '\n' = false ↔ ∀ c ∈ cs, isWild c = true := by
    simp only [List.contains_eq_mem, decide_eq_false_iff_not, isWild, bne_iff_ne]
    exact ⟨fun h c hc hbreak => h (hbreak ▸ hc), fun h hmem => h _ hmem rfl⟩
  rw [endsInColon, Bool.and_eq_true, Bool.not_eq_true', hwild, beq_iff_eq]
  show _ ↔ ∃ front back, cs = front ++ back ∧ (∀ c ∈ front, isWild c = true) ∧
    Matches [.word ":", .many isSpace] back
  simp only [matches_colon]
  constructor
  · rintro ⟨hwild, hlast⟩
    obtain ⟨back, hback, hcs⟩ := exists_eq_trimEnd_append isSpace cs
    obtain ⟨front, hfront⟩ := List.getLast?_eq_some_iff.1 hlast
    rw [hfront, List.append_assoc] at hcs
    refine ⟨front, ':' :: back, hcs, fun c hc => hwild c ?_, back, rfl, hback⟩
    rw [hcs]
    exact List.mem_append_left _ hc
  · rintro ⟨front, -, rfl, hfront, back, rfl, hback⟩
    have hsplit : front ++ ':' :: back = (front ++ [':']) ++ back := by simp
    constructor
    · intro c hc
      rcases List.mem_append.1 hc with hc | hc
      · exact hfront c hc
      rcases List.mem_cons.1 hc with rfl | hc
      · decide
      · exact isWild_of_isSpace c (hback c hc)
    · rw [hsplit, trimEnd_append_of_stop hback (by simp [isSpace]), List.getLast?_concat]

theorem isCondition_iff :
    isCondition cs = true ↔
      Matches [.several opensCondition, .many isWild, .word ":", .many isSpace] cs := by
  rw [isCondition, Bool.and_eq_true, endsInColon_iff]
  constructor
  · rintro ⟨hhead, front, back, rfl, hfront, hback⟩
    obtain ⟨c, hc, hopens⟩ := (Option.any_eq_true _ _).1 hhead
    -- The first character is no colon, so it is one of those in front of the colon.
    cases front with
    | nil =>
      obtain ⟨back, rfl, -⟩ := matches_colon.1 hback
      obtain rfl := Option.some.inj hc
      exact absurd hopens (by decide)
    | cons d front =>
      obtain rfl := Option.some.inj hc
      obtain ⟨-, hfront⟩ := List.forall_mem_cons.1 hfront
      have hfirst : ∀ c ∈ [d], opensCondition c = true := by
        intro c hc
        rw [List.mem_singleton.1 hc]
        exact hopens
      exact ⟨[d], front ++ back, rfl, ⟨List.cons_ne_nil _ _, hfirst⟩, front, back, rfl, hfront,
        hback⟩
  · rintro ⟨first, -, rfl, ⟨hne, hfirst⟩, front, back, rfl, hfront, hback⟩
    have hwild : ∀ c ∈ first, isWild c = true := by
      intro c hc
      have hopens := hfirst c hc
      simp only [opensCondition, Bool.or_eq_true, beq_iff_eq] at hopens
      rcases hopens with rfl | rfl <;> decide
    refine ⟨?_, first ++ front, back, by simp, List.forall_mem_append.2 ⟨hwild, hfront⟩, hback⟩
    obtain ⟨d, first, rfl⟩ := List.exists_cons_of_ne_nil hne
    exact hfirst d List.mem_cons_self

theorem isColon_iff : isColon cs = true ↔ Matches [.many isSpace, .word ":", .many isSpace] cs := by
  rw [isColon, beq_iff_eq]
  constructor
  · intro htrim
    obtain ⟨front, back, hfront, hback, hcs⟩ := exists_eq_trim_between isSpace cs
    rw [htrim, List.append_assoc] at hcs
    exact ⟨front, ':' :: back, hcs, hfront, matches_colon.2 ⟨back, rfl, hback⟩⟩
  · rintro ⟨front, back, rfl, hfront, hback⟩
    obtain ⟨back, rfl, hspaces⟩ := matches_colon.1 hback
    have hsplit : front ++ ':' :: back = front ++ [':'] ++ back := by simp
    rw [hsplit]
    exact trim_between hfront hspaces (List.cons_ne_nil _ _) (by simp [isSpace]) (by simp [isSpace])

/-- A keyword is found behind all spaces, as it does not start with one. -/
theorem startsWith_iff {keyword : String} {p : List Char → Bool} {atoms : List Atom} {d : Char}
    {ds : List Char} (hkeyword : keyword.toList = d :: ds) (hd : isSpace d = false)
    (hp : ∀ rest, p rest = true ↔ Matches atoms rest) :
    startsWith keyword p cs = true ↔ Matches (.many isSpace :: .word keyword :: atoms) cs := by
  rw [startsWith, Option.any_eq_true]
  constructor
  · rintro ⟨rest, hrest, h⟩
    rw [after?_eq_some_iff] at hrest
    refine ⟨cs.takeWhile isSpace, keyword.toList ++ rest, ?_, ?_, keyword.toList, rest, rfl, rfl,
      (hp rest).1 h⟩
    · rw [← hrest, List.takeWhile_append_dropWhile]
    · exact fun c hc => List.all_eq_true.1 List.all_takeWhile c hc
  · rintro ⟨front, -, rfl, hfront, -, rest, rfl, rfl, h⟩
    refine ⟨rest, ?_, (hp rest).2 h⟩
    have hstop : ∀ c ∈ (keyword.toList ++ rest).head?, isSpace c = false := by
      rw [hkeyword]
      rintro c ⟨⟩
      exact hd
    rw [dropWhile_append_of_stop hfront hstop, after?_eq_some_iff]

/-- A structure has the shape that its pattern describes. -/
theorem hasShape_iff_matches (control : Control) :
    control.hasShape cs = true ↔ Matches control.pattern cs := by
  have hcondition : ∀ rest, isCondition rest = true ↔
      Matches [.several opensCondition, .many isWild, .word ":", .many isSpace] rest :=
    fun rest => isCondition_iff
  -- Spaces in front of the colon or behind the keyword may also be read as any characters.
  have hwhile : ∀ rest, endsInColon rest = true ↔
      Matches [.many isSpace, .many isWild, .word ":", .many isSpace] rest := fun rest =>
    endsInColon_iff.trans (many_matches_many isWild_of_isSpace).symm
  have hcase : ∀ rest, endsInColon rest = true ↔
      Matches [.many isSpace, .many isWild, .many isSpace, .word ":", .many isSpace] rest :=
    fun rest => endsInColon_iff.trans
      ((many_matches_many isWild_of_isSpace).trans (matches_many_many isWild_of_isSpace)).symm
  cases control with
  | ifBranch => exact startsWith_iff rfl rfl hcondition
  | elseBranch => exact startsWith_iff rfl rfl fun rest => isColon_iff
  | elseIfBranch => exact startsWith_iff rfl rfl fun rest => startsWith_iff rfl rfl hcondition
  | whileLoop => exact startsWith_iff rfl rfl hwhile
  | forLoop => exact startsWith_iff rfl rfl hcondition
  | foreachLoop => exact startsWith_iff rfl rfl hcondition
  | switchBlock => exact startsWith_iff rfl rfl hcondition
  | caseBranch => exact startsWith_iff rfl rfl hcase

end Shapes

/-! ### No two shapes have a text in common -/

/-- The structure that the first characters of a text allow. -/
def candidate (cs : List Char) : Option Control :=
  match cs.dropWhile isSpace with
  | 'i' :: _ => some ifBranch
  | 'e' :: 'l' :: 's' :: 'e' :: rest =>
    some (if (rest.dropWhile isSpace).head? = some 'i' then elseIfBranch else elseBranch)
  | 'w' :: _ => some whileLoop
  | 'f' :: 'o' :: 'r' :: rest => some (if rest.head? = some 'e' then foreachLoop else forLoop)
  | 's' :: _ => some switchBlock
  | 'c' :: _ => some caseBranch
  | _ => none

theorem dropWhile_of_startsWith {keyword : String} {p : List Char → Bool} {cs : List Char}
    (h : startsWith keyword p cs = true) :
    ∃ rest, cs.dropWhile isSpace = keyword.toList ++ rest ∧ p rest = true := by
  obtain ⟨rest, hrest, hp⟩ := (Option.any_eq_true _ _).1 h
  exact ⟨rest, after?_eq_some_iff.1 hrest, hp⟩

theorem head?_of_isColon {cs : List Char} (h : isColon cs = true) :
    (cs.dropWhile isSpace).head? = some ':' := by
  obtain ⟨front, back, rfl, hfront, hback⟩ := isColon_iff.1 h
  obtain ⟨back, rfl, -⟩ := matches_colon.1 hback
  rw [dropWhile_append_of_stop hfront (by simp [isSpace])]
  rfl

variable {control : Control}

theorem candidate_of_matches {cs : List Char}
    (h : Matches control.pattern cs) : candidate cs = some control := by
  rw [← hasShape_iff_matches] at h
  cases control with
  | ifBranch | whileLoop | switchBlock | caseBranch | foreachLoop =>
    obtain ⟨rest, hrest, -⟩ := dropWhile_of_startsWith h
    rw [candidate, hrest]
    rfl
  | elseBranch =>
    obtain ⟨rest, hrest, hcolon⟩ := dropWhile_of_startsWith h
    have hhead : (rest.dropWhile isSpace).head? ≠ some 'i' := by
      rw [head?_of_isColon hcolon]
      decide
    rw [candidate, hrest]
    exact congrArg some (if_neg hhead)
  | elseIfBranch =>
    obtain ⟨rest, hrest, hif⟩ := dropWhile_of_startsWith h
    obtain ⟨behind, hbehind, -⟩ := dropWhile_of_startsWith hif
    have hhead : (rest.dropWhile isSpace).head? = some 'i' := by
      rw [hbehind]
      rfl
    rw [candidate, hrest]
    exact congrArg some (if_pos hhead)
  | forLoop =>
    obtain ⟨rest, hrest, hcondition⟩ := dropWhile_of_startsWith h
    have hhead : rest.head? ≠ some 'e' := by
      intro hhead
      have hopens := (Bool.and_eq_true_iff.1 hcondition).1
      rw [hhead] at hopens
      exact absurd hopens (by decide)
    rw [candidate, hrest]
    exact congrArg some (if_neg hhead)

theorem eq_of_matches {other : Control} {cs : List Char}
    (h : Matches control.pattern cs) (h' : Matches other.pattern cs) : control = other :=
  Option.some.inj ((candidate_of_matches h).symm.trans (candidate_of_matches h'))

/-- Whichever order the shapes are tried in, the one that a text has is found. -/
theorem find?_eq_some_iff {table : List Control} (htable : ∀ control, control ∈ table)
    {cs : List Char} :
    table.find? (·.hasShape cs) = some control ↔ Matches control.pattern cs := by
  rw [← hasShape_iff_matches]
  constructor
  · exact List.find?_some (p := fun control : Control => control.hasShape cs)
  · intro h
    have hfound : (table.find? (·.hasShape cs)).isSome = true :=
      List.find?_isSome.2 ⟨control, htable control, h⟩
    obtain ⟨other, hother⟩ := Option.isSome_iff_exists.1 hfound
    have hshape := List.find?_some (p := fun control : Control => control.hasShape cs) hother
    rw [hother, eq_of_matches (hasShape_iff_matches control |>.1 h)
      (hasShape_iff_matches other |>.1 hshape)]

theorem mem_all (control : Control) : control ∈ all := by
  cases control <;> decide

theorem classify_eq_some_iff {code : String} :
    classify code = some control ↔ Matches control.pattern code.toList :=
  find?_eq_some_iff mem_all

/-! ### Spaces at the ends -/

theorem head?_of_matches_body {cs : List Char}
    (h : Matches control.body cs) : ∃ c rest, cs = c :: rest ∧ isSpace c = false := by
  cases control <;>
    · obtain ⟨-, rest, rfl, rfl, -⟩ := h
      exact ⟨_, _, rfl, rfl⟩

/-- A pattern is matched by what stands between the spaces at the ends of a text. -/
theorem matches_pattern_iff_trim {cs : List Char} :
    Matches control.pattern cs ↔
      ∃ front, trim isSpace cs = front ++ [':'] ∧ Matches control.body front := by
  constructor
  · rintro ⟨xs, behind, rfl, hxs, hbehind⟩
    obtain ⟨front, back, rfl, hfront, hback⟩ := matches_append.1 hbehind
    obtain ⟨zs, rfl, hzs⟩ := matches_colon.1 hback
    obtain ⟨c, rest, rfl, hc⟩ := head?_of_matches_body hfront
    have hsplit : xs ++ (c :: rest ++ ':' :: zs) = xs ++ (c :: rest ++ [':']) ++ zs := by simp
    refine ⟨c :: rest, ?_, hfront⟩
    rw [hsplit]
    refine trim_between hxs hzs (by simp) ?_ ?_
    · rintro d ⟨⟩
      exact hc
    · rw [List.getLast?_concat]
      rintro d ⟨⟩
      decide
  · rintro ⟨front, htrim, hfront⟩
    obtain ⟨xs, zs, hxs, hzs, hcs⟩ := exists_eq_trim_between isSpace cs
    rw [htrim, List.append_assoc, List.append_assoc] at hcs
    have hcolon := matches_colon.2 ⟨zs, rfl, hzs⟩
    exact ⟨xs, _, hcs, hxs, matches_append.2 ⟨front, _, rfl, hfront, hcolon⟩⟩

theorem classify_eq_of_trimSpaces_eq {code other : String}
    (h : trimSpaces code = trimSpaces other) : classify code = classify other := by
  have htrim : trim isSpace code.toList = trim isSpace other.toList := String.ofList_injective h
  refine Option.ext fun control => ?_
  rw [classify_eq_some_iff, classify_eq_some_iff, matches_pattern_iff_trim,
    matches_pattern_iff_trim, htrim]

/-- The text that is printed for code with a block, and what is printed around it. -/
theorem exists_codeFrame_fst (r : Renderer) (level : Nat) (elseFollows : Bool) {head : Statement}
    (h : head.verbatim = false) :
    ∃ text, trimSpaces text = trimSpaces head.expression ∧
      (r.codeFrame level elseFollows head).1 =
        if (classify head.expression).isSome then "<?php " ++ text ++ " ?>\n"
        else (if head.buffered then "<?= " else "<?php ") ++ text ++ " \x7b ?>\n" := by
  cases hclassify : classify head.expression with
  | none =>
    refine ⟨trimLeadingSpaces head.expression, trimSpaces_trimLeadingSpaces _, ?_⟩
    simp [Renderer.codeFrame, h, hclassify]
  | some control =>
    refine ⟨trimSpaces head.expression, trimSpaces_trimSpaces _, ?_⟩
    simp [Renderer.codeFrame, h, hclassify, Renderer.trimTrailingSpaces_trimLeadingSpaces]

/-- A text matches the pattern of one control structure at most, which is the one that it is
taken for, in whichever order the structures are tried. Spaces at its ends do not matter: the
text that is printed for code with a block is taken for the same structure as the code, and
decides what is printed around it. -/
theorem shapes_exclusive :
    (∀ (cs : List Char) (control other : Control),
      Matches control.pattern cs → Matches other.pattern cs → control = other) ∧
    (∀ (code : String) (control : Control),
      classify code = some control ↔ Matches control.pattern code.toList) ∧
    (∀ table : List Control, table.Perm all → ∀ code : String,
      table.find? (·.hasShape code.toList) = classify code) ∧
    (∀ (code : String) (m n : Nat), classify (spaces m ++ code ++ spaces n) = classify code) ∧
    (∀ code : String, classify (trimSpaces code) = classify code) ∧
    ∀ (r : Renderer) (level : Nat) (elseFollows : Bool) (head : Statement),
      head.verbatim = false →
        ∃ text, trimSpaces text = trimSpaces head.expression ∧
          classify text = classify head.expression ∧
          (r.codeFrame level elseFollows head).1 =
            if (classify text).isSome then "<?php " ++ text ++ " ?>\n"
            else (if head.buffered then "<?= " else "<?php ") ++ text ++ " \x7b ?>\n" := by
  refine ⟨fun cs control other => eq_of_matches, fun code control => classify_eq_some_iff, ?_,
    fun code m n => classify_eq_of_trimSpaces_eq (trimSpaces_spaces code m n),
    fun code => classify_eq_of_trimSpaces_eq (trimSpaces_trimSpaces code), ?_⟩
  · intro table hperm code
    have htable : ∀ control, control ∈ table := fun control => hperm.mem_iff.2 (mem_all control)
    refine Option.ext fun control => ?_
    rw [find?_eq_some_iff htable, classify_eq_some_iff]
  · intro r level elseFollows head hverbatim
    obtain ⟨text, htrim, hframe⟩ := exists_codeFrame_fst r level elseFollows hverbatim
    have hclassify := classify_eq_of_trimSpaces_eq htrim
    refine ⟨text, htrim, hclassify, ?_⟩
    rw [hclassify]
    exact hframe

/-- A loop over `foreach`, which starts like one over `for`, with spaces around it. -/
theorem shapes_exclusive_foreach :
    Matches foreachLoop.pattern " foreach ($xs as $x) : ".toList ∧
      (∀ other, Matches other.pattern " foreach ($xs as $x) : ".toList → other = foreachLoop) ∧
      all.reverse.find? (·.hasShape " foreach ($xs as $x) : ".toList) = some foreachLoop ∧
      classify "foreach ($xs as $x) :" = some foreachLoop ∧
      ∃ text, classify text = some foreachLoop ∧
        (Renderer.codeFrame {} 1 false
          { line := 1, expression := " foreach ($xs as $x) : ", buffered := false,
            verbatim := false }).1 = "<?php " ++ text ++ " ?>\n" := by
  have hshape : foreachLoop.hasShape " foreach ($xs as $x) : ".toList = true := by decide
  have hmatches := (hasShape_iff_matches foreachLoop).1 hshape
  have hclassify := (shapes_exclusive.2.1 _ foreachLoop).2 hmatches
  have hreverse := shapes_exclusive.2.2.1 all.reverse (List.reverse_perm _)
    " foreach ($xs as $x) : "
  have hspaces := shapes_exclusive.2.2.2.1 "foreach ($xs as $x) :" 1 1
  obtain ⟨text, -, htext, hframe⟩ := shapes_exclusive.2.2.2.2.2 {} 1 false
    { line := 1, expression := " foreach ($xs as $x) : ", buffered := false, verbatim := false } rfl
  rw [hclassify] at htext
  rw [htext] at hframe
  exact ⟨hmatches, fun other h => shapes_exclusive.1 _ _ _ h hmatches, hreverse.trans hclassify,
    hspaces.symm.trans hclassify, text, htext, hframe⟩

end Control

end Offside
