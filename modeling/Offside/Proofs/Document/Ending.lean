import Offside.Proofs.Document.Blocks

/-!
# Reading stops in front of the end

No move of a cursor takes the end of a template, but closing a block with it. It is never
taken like that, since blocks are closed by outdents, and so it is left when the document was
read (`left_pos_of_parse`).
-/

set_option autoImplicit false

namespace Offside.Reading

open Brackets

/-- A cursor in some lexemes that has not come behind the last of them, or has done so to
close a block. -/
structure Cursor.Inside (c : Cursor) (ls : List Lexeme) : Prop where
  rest : c.rest = ls.drop c.place
  place : c.place < ls.length ∨ ∃ s ∈ c.spans, ls.length ≤ s.2 + 1

/-- No move leads out of the lexemes, unless it closes a block. -/
theorem Cursor.Inside.moves {ls : List Lexeme} {e : Lexeme} (hlast : ls.getLast? = some e)
    (he : e.kind = .eos) {c c' : Cursor} (hmove : Moves c c') (h : c.Inside ls) : c'.Inside ls := by
  have hrest : c.take.rest = ls.drop c.take.place := by
    show c.rest.drop 1 = ls.drop (c.place + 1)
    rw [h.rest, List.drop_drop]
  cases hmove with
  | seen => exact ⟨h.rest, h.place⟩
  | take heos =>
    refine ⟨hrest, h.place.imp_left fun hlt => Nat.lt_of_le_of_ne hlt fun heq => heos ?_⟩
    -- What is not the end of the template is not the last lexeme.
    have heq : c.place = ls.length - 1 := Nat.eq_sub_of_add_eq heq
    have hnext : c.next = e := by
      rw [Cursor.next, h.rest, List.headD_eq_head?_getD, List.head?_drop, heq,
        ← List.getLast?_eq_getElem?, hlast]
      rfl
    rw [hnext, he]
  | close start =>
    refine ⟨hrest, ?_⟩
    rcases h.place with hlt | ⟨s, hs, hle⟩
    · rcases Nat.lt_or_ge (c.place + 1) ls.length with hlt' | hge
      · exact .inl hlt'
      · exact .inr ⟨(start, c.place), List.mem_cons_self, hge⟩
    · exact .inr ⟨s, List.mem_cons_of_mem _ hs, hle⟩

/-- If all blocks are closed by outdents, the end of the template is not taken. -/
theorem left_pos_of_gives {ls : List Lexeme} {e : Lexeme} (hlast : ls.getLast? = some e)
    (he : e.kind = .eos) {children : List Node} {c : Cursor}
    (hgives : (document { rest := ls }).Gives children c)
    (hspans : ∀ s ∈ c.spans, ∃ l, ls[s.2]? = some l ∧ l.kind = .outdent) : 0 < c.left := by
  have hne : ls ≠ [] := by
    rintro rfl
    cases hlast
  have hstart : Cursor.Inside { rest := ls } ls := ⟨rfl, .inl (List.length_pos_of_ne_nil hne)⟩
  have hreads : Reads .document { rest := ls } children c := .of_gives trivial hgives
  have hinside := hreads.keeps (fun _ _ => Cursor.Inside.moves hlast he) hstart
  rw [Cursor.left, hinside.rest, List.length_drop]
  refine Nat.sub_pos_of_lt (hinside.place.resolve_right ?_)
  rintro ⟨s, hs, hle⟩
  obtain ⟨l, hl, hkind⟩ := hspans s hs
  have hlt : s.2 < ls.length := (List.getElem?_eq_some_iff.1 hl).1
  rw [List.getLast?_eq_getElem?, show ls.length - 1 = s.2 by omega, hl] at hlast
  obtain rfl := Option.some.inj hlast
  rw [he] at hkind
  cases hkind

end Offside.Reading

namespace Offside

open Brackets Reading

/-- The end of a template is left when its document was read. -/
theorem left_pos_of_parse {layout : Layout} {source : String} {root : Block}
    (h : parse layout source = .ok root) :
    ∃ c, (document { rest := (Scanner.ofSource layout source).tape.lexemes }).Gives
      root.children c ∧ 0 < c.left := by
  obtain ⟨t, hlast, ht⟩ := Scanner.getLast?_tape (gives_of_parse h).1
  obtain ⟨c, hgives, -, hspans⟩ := exists_spans h
  have hend : (Scanner.ofSource layout source).tape.lexemes.getLast? = some t.lexeme := by
    rw [Tape.lexemes, List.getLast?_map, hlast]
    rfl
  refine ⟨c, hgives, left_pos_of_gives hend ht hgives fun s hs => ?_⟩
  obtain ⟨t', ht', hcloses⟩ := (hspans s.1 s.2 hs).closes
  refine ⟨t'.lexeme, ?_, beq_iff_eq.1 hcloses⟩
  rw [Tape.lexemes, ← map_lexeme_settle, List.getElem?_map, ht']
  rfl

end Offside
