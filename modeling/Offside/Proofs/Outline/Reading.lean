import Offside.Proofs.Document.Refinement
import Offside.Proofs.Outline.Source

/-!
# Reading a printed outline

The lexemes of an outline are read as the nodes of that outline. `resume` says which
lexemes are left once the rungs up to some line were read: the outdents that close levels,
the next rung and what is behind it. Unlike `after` it has no newlines, since reading an
item takes the newlines behind it.

One lemma reads an item with the outline below it (`reads_node`), given that the outline
below is read. By induction on outlines this reads the nodes of every level (`readsBack`),
and those of the top level are the document (`ofLexemes_resume`).
-/

set_option autoImplicit false

namespace Offside.Outline

open Offside.Character (trimSpaces trimLeadingSpaces isSpace)
open Offside.Reading (Cursor Reads)

/-! ### Cursors in an outline -/

/-- A cursor in front of some lexemes, behind which nothing is wrong. -/
def On (c : Cursor) (ls : List Lexeme) : Prop :=
  c.rest = ls ∧ c.failure = none

/-- The lexemes behind what was read of a level of the given depth, up to a line. -/
def resume (depth line : Nat) : List Rung → List Lexeme
  | [] => List.replicate depth ⟨.outdent, line⟩ ++ [⟨.eos, line⟩]
  | r :: rungs =>
    List.replicate (depth - r.depth) ⟨.outdent, line + 1⟩ ++
      (r.item.lexemes (line + 1) ++ after r.depth (line + 1) rungs)

variable {c : Cursor} {depth line : Nat} {rungs : List Rung} {l : Lexeme} {ls : List Lexeme}

theorem On.goes (h : On c ls) : c.Goes :=
  fun _ => h.2

theorem On.next (h : On c (l :: ls)) : c.next = l := by
  rw [Cursor.next, h.1]
  rfl

theorem On.take (h : On c (l :: ls)) : On c.take ls := by
  refine ⟨?_, h.2⟩
  show c.rest.drop 1 = ls
  rw [h.1]
  rfl

theorem On.seen (h : On c ls) : On c.seen ls :=
  h

/-- Each item starts with a lexeme at which no line ends. -/
theorem Item.lexemes_eq_cons (line : Nat) (i : Item) :
    ∃ l ls, i.lexemes line = l :: ls ∧
      (l.kind = .tag ∨ l.kind = .code ∨ l.kind = .comment) := by
  cases i with
  | tag name text => exact ⟨_, _, rfl, .inl rfl⟩
  | code expression buffered => exact ⟨_, _, rfl, .inr (.inl rfl)⟩
  | comment body => exact ⟨_, _, rfl, .inr (.inr rfl)⟩

/-- Where a level is closed, the lexemes go on with an outdent. -/
theorem resume_succ (line : Nat) (h : ∀ r ∈ rungs.head?, r.depth ≤ depth) :
    ∃ line', resume (depth + 1) line rungs = ⟨.outdent, line'⟩ :: resume depth line rungs := by
  cases rungs with
  | nil => exact ⟨line, rfl⟩
  | cons r rungs =>
    have hcount : depth + 1 - r.depth = depth - r.depth + 1 := Nat.succ_sub (h r rfl)
    refine ⟨line + 1, ?_⟩
    rw [resume, hcount, List.replicate_succ]
    rfl

/-- In front of rungs that are not as deep, a level ends. -/
theorem resume_closes (line : Nat) (h : ∀ r ∈ rungs.head?, r.depth < depth) :
    ∃ l ls, resume depth line rungs = l :: ls ∧ (l.kind = .outdent ∨ l.kind = .eos) := by
  cases depth with
  | zero =>
    cases rungs with
    | nil => exact ⟨_, _, rfl, .inr rfl⟩
    | cons r rungs => exact absurd (h r rfl) (Nat.not_lt_zero _)
  | succ depth =>
    obtain ⟨line', hresume⟩ := resume_succ line fun r hr => Nat.le_of_lt_succ (h r hr)
    exact ⟨_, _, hresume, .inl rfl⟩

/-- What is left of a level starts with an item, an outdent or the end. -/
theorem resume_eq_cons (depth line : Nat) (rungs : List Rung) :
    ∃ l ls, resume depth line rungs = l :: ls ∧
      (l.kind = .tag ∨ l.kind = .code ∨ l.kind = .comment ∨ l.kind = .outdent ∨
        l.kind = .eos) := by
  cases rungs with
  | nil =>
    cases depth with
    | zero => exact ⟨_, _, rfl, by simp [Lexeme.kind, Token.kind]⟩
    | succ depth => exact ⟨_, _, rfl, by simp [Lexeme.kind, Token.kind]⟩
  | cons r rungs =>
    rw [resume]
    cases depth - r.depth with
    | zero =>
      obtain ⟨l, ls, hls, hkind⟩ := r.item.lexemes_eq_cons (line + 1)
      refine ⟨l, ls ++ after r.depth (line + 1) rungs, by rw [hls]; rfl, ?_⟩
      rcases hkind with h | h | h <;> simp [h]
    | succ n => exact ⟨_, _, rfl, by simp [Lexeme.kind, Token.kind]⟩

/-- Nothing behind a rung belongs to its line. -/
theorem after_eq_cons (depth line : Nat) (rungs : List Rung) :
    ∃ l ls, after depth line rungs = l :: ls ∧
      (l.kind = .newline ∨ l.kind = .indent ∨ l.kind = .outdent ∨ l.kind = .eos) := by
  cases rungs with
  | nil =>
    cases depth with
    | zero => exact ⟨_, _, rfl, by simp [Lexeme.kind, Token.kind]⟩
    | succ depth => exact ⟨_, _, rfl, by simp [Lexeme.kind, Token.kind]⟩
  | cons r rungs =>
    rw [after, glue]
    -- The rung closes levels, goes on in its level or opens one.
    rcases Nat.lt_trichotomy r.depth depth with hlt | heq | hgt
    · obtain ⟨n, hn⟩ : ∃ n, depth - r.depth = n + 1 := ⟨depth - r.depth - 1, by omega⟩
      rw [if_neg (Nat.ne_of_lt hlt), if_neg (Nat.lt_asymm hlt), hn]
      exact ⟨_, _, rfl, by simp [Lexeme.kind, Token.kind]⟩
    · rw [if_pos heq]
      exact ⟨_, _, rfl, by simp [Lexeme.kind, Token.kind]⟩
    · rw [if_neg (Nat.ne_of_gt hgt), if_pos hgt]
      exact ⟨_, _, rfl, by simp [Lexeme.kind, Token.kind]⟩

/-- Behind a rung, lexemes go on with a newline if the next rung has the same depth. -/
theorem after_eq_resume (line : Nat) (h : ∀ r ∈ rungs.head?, r.depth ≤ depth) :
    after depth line rungs = resume depth line rungs ∨
      after depth line rungs = ⟨.newline, line + 1⟩ :: resume depth line rungs := by
  cases rungs with
  | nil => exact .inl rfl
  | cons r rungs =>
    have hle := h r rfl
    rw [after, glue]
    by_cases heq : r.depth = depth
    · rw [if_pos heq]
      exact .inr rfl
    · rw [if_neg heq, if_neg (by omega)]
      exact .inl rfl

/-- Behind a rung, lexemes go on with an indent if the next rung is deeper. -/
theorem after_succ (depth line : Nat) (i : Item) (rungs : List Rung) :
    after depth line (⟨depth + 1, i⟩ :: rungs) =
      ⟨.indent, line + 1⟩ :: resume (depth + 1) line (⟨depth + 1, i⟩ :: rungs) := by
  have hne : depth + 1 ≠ depth := by omega
  rw [after, glue, if_neg hne, if_pos (Nat.lt_succ_self depth), resume, Nat.sub_self,
    Nat.sub_eq_zero_of_le (Nat.le_succ depth)]
  rfl

/-! ### What stands below an item -/

theorem On.skipNewlines_of_ne (h : On c (l :: ls)) (hl : l.kind ≠ .newline) :
    Reads (.run (· = .newline)) c [] c.seen :=
  .stop h.goes (by simpa [h.next] using hl)

theorem On.skipNewlines {line : Nat} (h : On c (⟨.newline, line⟩ :: l :: ls))
    (hl : l.kind ≠ .newline) : Reads (.run (· = .newline)) c [c.next] c.take.seen :=
  .more (by rw [h.next]; rfl) (by rw [h.next]; nofun) (h.take.skipNewlines_of_ne hl)

/-- Whether an outline of some depth is read as its nodes, where it is followed by rungs
that are not as deep. -/
def ReadsBack (depth : Nat) (o : Outline) : Prop :=
  ∀ (c : Cursor) (line : Nat) (rungs : List Rung), (∀ r ∈ rungs.head?, r.depth < depth) →
    On c (resume depth line (o.rungs depth ++ rungs)) →
    ∃ c', Reads .nodes c (o.nodes trimSpaces (line + 1)) c' ∧
      On c' (resume depth (line + o.size) rungs)

variable {o : Outline}

/-- A block is read from its indent to its outdent. -/
theorem reads_block (ho : ReadsBack (depth + 1) o) (hrungs : ∀ r ∈ rungs.head?, r.depth ≤ depth)
    (hc : On c (⟨.indent, line + 1⟩ :: resume (depth + 1) line (o.rungs (depth + 1) ++ rungs))) :
    ∃ c', Reads .below c (some ⟨line + 1, o.nodes trimSpaces (line + 1)⟩) c' ∧
      On c' (resume depth (line + o.size) rungs) := by
  -- The nodes end in front of the outdent of their level, which the block takes.
  have hless : ∀ r ∈ rungs.head?, r.depth < depth + 1 := fun r hr => Nat.lt_succ_of_le (hrungs r hr)
  obtain ⟨c₁, hnodes, hc₁⟩ := ho c.take line rungs hless hc.take
  obtain ⟨line', hresume⟩ := resume_succ (line + o.size) hrungs
  rw [hresume] at hc₁
  have hblock := Reads.block (by rw [hc.next]; rfl) hnodes
  rw [hc.next] at hblock
  exact ⟨c₁.close c.place, hblock, hc₁.take⟩

/-- No block is read where no indent follows. -/
theorem On.below_of_resume (hc : On c (resume depth line rungs)) :
    c.next.kind ≠ .text ∧ Reads .below c none c := by
  obtain ⟨l, ls, hls, hkind⟩ := resume_eq_cons depth line rungs
  rw [hls] at hc
  rw [← hc.next] at hkind
  have hne : c.next.kind ≠ .text ∧ c.next.kind ≠ .indent := by
    rcases hkind with h | h | h | h | h <;> rw [h] <;> exact ⟨nofun, nofun⟩
  exact ⟨hne.1, .noBlock hne.2⟩

/-- Behind an item, newlines are skipped and the outline below it is read. -/
theorem reads_below (ho : ReadsBack (depth + 1) o) (hrungs : ∀ r ∈ rungs.head?, r.depth ≤ depth)
    (hc : On c (after depth line (o.rungs (depth + 1) ++ rungs))) :
    ∃ newlines c₁ c₂, Reads (.run (· = .newline)) c newlines c₁ ∧ c₁.next.kind ≠ .text ∧
      Reads .below c₁ (Item.block line (o.nodes trimSpaces (line + 1))) c₂ ∧
      On c₂ (resume depth (line + o.size) rungs) := by
  cases o with
  | nil =>
    rw [Outline.rungs, List.nil_append] at hc
    obtain ⟨l, ls, hls, hkind⟩ := resume_eq_cons depth line rungs
    have hl : l.kind ≠ .newline := by
      rcases hkind with h | h | h | h | h <;> rw [h] <;> decide
    -- Without an outline below there may be a newline, and then no block.
    rcases after_eq_resume line hrungs with hafter | hafter
    · rw [hafter] at hc
      obtain ⟨hnext, hbelow⟩ := hc.seen.below_of_resume
      exact ⟨[], c.seen, c.seen, (hls ▸ hc).skipNewlines_of_ne hl, hnext, hbelow, hc.seen⟩
    · rw [hafter] at hc
      obtain ⟨hnext, hbelow⟩ := hc.take.seen.below_of_resume
      rw [hls] at hc
      exact ⟨_, c.take.seen, c.take.seen, hc.skipNewlines hl, hnext, hbelow, hls ▸ hc.take.seen⟩
  | cons item below next =>
    rw [Outline.rungs, List.cons_append, after_succ] at hc
    have hnext : c.seen.next.kind ≠ .text := by
      rw [hc.seen.next]
      rintro ⟨⟩
    obtain ⟨c₂, hbelow, hc₂⟩ := reads_block ho hrungs hc.seen
    exact ⟨[], c.seen, c₂, hc.skipNewlines_of_ne (by rintro ⟨⟩), hnext, hbelow, hc₂⟩

/-! ### Items -/

/-- The text on the line of a tag comes back without the space in front of it. -/
theorem IsInlineText.ofValue_eq {t : String} (h : IsInlineText t) (line : Nat) :
    Text.ofValue (trimLeadingSpaces (" " ++ t)) line = { line, lines := [t] } := by
  obtain ⟨hne, hhead, hbreak, -⟩ := h
  have hdrop : (" " ++ t).toList.dropWhile isSpace = t.toList := by
    rw [String.toList_append]
    show t.toList.dropWhile isSpace = t.toList
    cases hcs : t.toList with
    | nil => rfl
    | cons c cs =>
      rw [hcs] at hhead
      exact List.dropWhile_cons_of_neg (by simpa [isSpace] using (hhead c rfl).1)
  have hsplit : t.toList.splitOn '\n' = [t.toList] :=
    List.splitOn_eq_singleton fun hmem => (hbreak _ hmem).1 rfl
  rw [trimLeadingSpaces, hdrop, String.ofList_toList, Text.ofValue, if_neg hne, hsplit]
  simp

/-- The space in front of the body of a comment is trimmed. -/
theorem trimSpaces_space (body : String) : trimSpaces (" " ++ body) = trimSpaces body := by
  rw [trimSpaces, String.toList_append]
  rfl

/-- The text on the line of a tag is read, if there is one. -/
theorem reads_inline {text : Option String} (htext : ∀ t ∈ text, IsInlineText t)
    (hc : On c (text.toList.map (fun t => ⟨.text (" " ++ t), line⟩) ++ after depth line rungs)) :
    ∃ c', Reads .inline c (text.map fun t => { line, lines := [t] }, none) c' ∧
      On c' (after depth line rungs) := by
  cases text with
  | none =>
    obtain ⟨l, ls, hls, hkind⟩ := after_eq_cons depth line rungs
    have hne : c.next.kind ≠ .text ∧ c.next.kind ≠ .code := by
      rw [(hls ▸ hc : On c (l :: ls)).next]
      rcases hkind with h | h | h | h <;> rw [h] <;> exact ⟨nofun, nofun⟩
    exact ⟨c, .inlineNone hne.1 hne.2, hc⟩
  | some t =>
    have hinline := Reads.inlineText (congrArg Lexeme.token hc.next)
    rw [hc.next, (htext t rfl).ofValue_eq] at hinline
    exact ⟨c.take, hinline, hc.take⟩

theorem reads_tag (ho : ReadsBack (depth + 1) o)
    (hrungs : ∀ r ∈ rungs.head?, r.depth ≤ depth) {text : Option String}
    (htext : ∀ t ∈ text, IsInlineText t) (e : Element)
    (hc : On c (text.toList.map (fun t => ⟨.text (" " ++ t), line⟩) ++
      after depth line (o.rungs (depth + 1) ++ rungs))) :
    ∃ c', Reads (.tag e) c
        { e with
          text := text.map fun t => { line, lines := [t] }
          code := none
          children := (Item.block line (o.nodes trimSpaces (line + 1))).getD ⟨e.line, []⟩ } c' ∧
      On c' (resume depth (line + o.size) rungs) := by
  -- No shorthand or attribute list follows the name of a tag in an outline.
  have hmark : Reading.isMark c.next.kind = false := by
    cases text with
    | none =>
      obtain ⟨l, ls, hls, hkind⟩ := after_eq_cons depth line (o.rungs (depth + 1) ++ rungs)
      rw [(hls ▸ hc : On c (l :: ls)).next]
      rcases hkind with h | h | h | h <;> rw [h] <;> rfl
    | some t =>
      rw [hc.next]
      rfl
  obtain ⟨c₁, hinline, hc₁⟩ := reads_inline htext hc.seen
  obtain ⟨newlines, c₂, c₃, hskip, hnext, hbelow, hc₃⟩ := reads_below ho hrungs hc₁
  have htag := Reads.tag (e := e) (.stop hc.goes hmark) hinline hskip hbelow
  rw [if_neg hnext] at htag
  exact ⟨c₃, htag, hc₃⟩

/-- An item is read as its node, with the nodes of the outline below it. -/
theorem reads_node {i : Item} (hi : i.Readable) (ho : ReadsBack (depth + 1) o)
    (hrungs : ∀ r ∈ rungs.head?, r.depth ≤ depth)
    (hc : On c (i.lexemes line ++ after depth line (o.rungs (depth + 1) ++ rungs))) :
    ∃ c', Reads .node c (some (i.node trimSpaces line (o.nodes trimSpaces (line + 1)))) c' ∧
      On c' (resume depth (line + o.size) rungs) := by
  cases i with
  | tag name text =>
    obtain ⟨c', htag, hc'⟩ := reads_tag ho hrungs hi.2 (.ofName name line) hc.take
    exact ⟨c', .element (congrArg Lexeme.token hc.next) (by rwa [hc.next]), hc'⟩
  | code expression buffered =>
    -- The code of an outline is not verbatim, so it is read with what is below it.
    have hhead : Grammar.statement line (" " ++ expression) buffered =
        { line, expression := " " ++ expression, buffered, verbatim := false } := by
      rw [Grammar.statement, hi.opensVerbatim_code]
    obtain ⟨newlines, c₁, c₂, hskip, -, hbelow, hc₂⟩ := reads_below ho hrungs hc.take
    refine ⟨c₂, .code (congrArg Lexeme.token hc.next) ?_, hc₂⟩
    rw [hc.next, hhead]
    exact .codeBlock rfl hskip hbelow
  | comment body =>
    obtain ⟨newlines, c₁, c₂, hskip, -, hbelow, hc₂⟩ := reads_below ho hrungs hc.take
    refine ⟨c₂, .comment (congrArg Lexeme.token hc.next) ?_, hc₂⟩
    rw [hc.next, trimSpaces_space]
    exact .commentBlock rfl hskip hbelow

/-! ### Outlines -/

theorem head_rungs (o : Outline) (h : ∀ r ∈ rungs.head?, r.depth ≤ depth) :
    ∀ r ∈ (o.rungs depth ++ rungs).head?, r.depth ≤ depth := by
  cases o with
  | nil => exact h
  | cons item below next =>
    rintro r ⟨⟩
    exact Nat.le_refl depth

/-- An outline is read as its nodes. By induction this holds of the outline below the first item
and of the items next to it. -/
theorem readsBack (ho : o.Readable) (depth : Nat) : ReadsBack depth o := by
  induction o generalizing depth with
  | nil =>
    intro c line rungs hrungs hc
    obtain ⟨l, ls, hls, hkind⟩ := resume_closes line hrungs
    rw [Outline.rungs, List.nil_append] at hc
    rw [← (hls ▸ hc : On c (l :: ls)).next] at hkind
    exact ⟨c.seen, .nil hc.goes hkind, hc.seen⟩
  | cons item below next ihbelow ihnext =>
    intro c line rungs hrungs hc
    have hless : ∀ r ∈ rungs.head?, r.depth ≤ depth := fun r hr => Nat.le_of_lt (hrungs r hr)
    rw [Outline.rungs, List.cons_append, List.append_assoc, resume, Nat.sub_self] at hc
    obtain ⟨c₁, hfirst, hc₁⟩ :=
      reads_node ho.1 (ihbelow ho.2.1 (depth + 1)) (head_rungs next hless) hc.seen
    -- Behind the first item and what is below it, the rest of the level is left.
    obtain ⟨c₂, hnodes, hc₂⟩ := ihnext ho.2.2 depth c₁ _ rungs hrungs hc₁
    refine ⟨c₂, ?_, by rwa [size, ← Nat.add_assoc, ← Nat.add_assoc]⟩
    rw [Outline.nodes, Nat.add_right_comm (line + 1) 1]
    exact .cons hfirst hnodes

/-- An outline that is a whole document is read as its nodes. -/
theorem ofLexemes_resume (ho : o.Readable) (line : Nat) :
    Reading.ofLexemes (resume 0 line (o.rungs 0)) = .ok ⟨1, o.nodes trimSpaces (line + 1)⟩ := by
  have hc : On { rest := resume 0 line (o.rungs 0) } (resume 0 line (o.rungs 0 ++ [])) := by
    rw [List.append_nil]
    exact ⟨rfl, rfl⟩
  obtain ⟨c', hnodes, hc'⟩ := readsBack ho 0 _ line [] nofun hc
  have heos : c'.next.kind = .eos := by
    rw [hc'.next]
    rfl
  exact Reading.read_of_reads (.document hnodes heos)

/-- A printed outline is parsed as its nodes, with the bodies of its comments tidied up. -/
theorem parse_print (layout : Layout) {k : Nat} (hk : 1 ≤ k) (ho : o.Valid) :
    parse layout (o.print k) = .ok ⟨1, o.nodes (tidyBody layout) 1⟩ := by
  have hreadable := ho.readable_expand layout
  cases o with
  | nil =>
    have hs : At 0 (Scanner.ofSource layout "") 0 1 [] := at_ofSource 0 rfl
    have htokens : tokenize layout "" = .ok [⟨.eos, 1⟩] := by
      rw [tokenize_eq_tape, Tape.result_eq_ok_iff, (tape_end hs).1, (tape_end hs).2]
      exact ⟨rfl, rfl⟩
    have hparse := (parse_eq_ofLexemes htokens).trans (ofLexemes_resume hreadable 1)
    rwa [nodes_expand, nodes] at hparse
  | cons item below next =>
    have hparse := (parse_eq_ofLexemes (tokenize_print layout hk ho)).trans
      (ofLexemes_resume hreadable 0)
    rwa [nodes_expand] at hparse

/-- A tab in a comment does not come back. -/
theorem parse_print_ne_of_tab :
    (cons (.comment "a\tb") nil nil).Valid ∧
      parse {} ((cons (.comment "a\tb") nil nil).print 2) ≠
        .ok ⟨1, (cons (.comment "a\tb") nil nil).nodes id 1⟩ := by
  have hvalid : (cons (.comment "a\tb") nil nil).Valid := by decide +kernel
  refine ⟨hvalid, ?_⟩
  rw [parse_print {} (by decide) hvalid]
  intro h
  have hnodes := (nodes_eq_iff {} hvalid 1).1 (Block.mk.inj (Except.ok.inj h)).2
  exact hnodes.1 "a\tb" rfl (by decide)

/-- Parsing undoes printing, but for the tabs in comments: the body of a comment comes
back with spaces for its tabs and without spaces at its ends. So an outline comes back
as it is if and only if its comments have no tabs. -/
theorem parse_undoes_print (layout : Layout) (k : Nat) (hk : 1 ≤ k) (o : Outline) (ho : o.Valid) :
    parse layout (o.print k) = .ok ⟨1, o.nodes (tidyBody layout) 1⟩ ∧
      (parse layout (o.print k) = .ok ⟨1, o.nodes id 1⟩ ↔ o.TabFree) := by
  have hparse := parse_print layout hk ho
  refine ⟨hparse, ?_⟩
  rw [hparse, Except.ok.injEq, Block.mk.injEq, nodes_eq_iff layout ho]
  exact and_iff_right rfl

/-- The last line closes two levels at once. -/
theorem parse_undoes_print_list :
    parse {} "ul\n  li one\n    - f(x)\n  li\n    /! two\n= y" = .ok ⟨1,
      (cons (.tag "ul" none)
        (cons (.tag "li" (some "one")) (cons (.code "f(x)" false) nil nil)
          (cons (.tag "li" none) (cons (.comment "two") nil nil) nil))
        (cons (.code "y" true) nil nil)).nodes id 1⟩ := by
  have hparse := (parse_undoes_print {} 2 (by decide)
    (cons (.tag "ul" none)
        (cons (.tag "li" (some "one")) (cons (.code "f(x)" false) nil nil)
          (cons (.tag "li" none) (cons (.comment "two") nil nil) nil))
        (cons (.code "y" true) nil nil)) (by decide +kernel)).2.2 (by simp [TabFree])
  exact hparse

end Offside.Outline
