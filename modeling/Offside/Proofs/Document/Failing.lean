import Offside.Proofs.Document.Reads

/-!
# Reading in front of a failure

Reading a list of lexemes stops with what is wrong behind the last one, or with an error
about a lexeme of the list. Only a text that is missing at the end of the template may be
missed behind the list. When something is wrong behind the last lexeme, no document can be
read: the end of the template is not there to be found.

A cursor stays in front of the same failure and of lexemes of the list wherever it moves
(`Cursor.Fails.moves`), so it is enough to ask what can be wrong where such a cursor is.
-/

set_option autoImplicit false

namespace Offside.Reading

variable {f : Option ScanError} {ls : List Lexeme} {c c' : Cursor}

/-- An error about a lexeme: it was needed to open a block, or it starts no node. -/
def Blames (e : ParseError) (l : Lexeme) : Prop :=
  e = .unexpectedToken .indent l.kind l.line ∨ e = .unknownToken l.kind l.line

/-- A cursor in front of a failure, if there is one, and of lexemes from a list. -/
structure Cursor.Fails (c : Cursor) (f : Option ScanError) (ls : List Lexeme) : Prop where
  failure : c.failure = f
  rest : ∀ l ∈ c.rest, l ∈ ls

/-- The errors that reading in front of a failure may raise. -/
inductive Faults (f : Option ScanError) (ls : List Lexeme) (e : ParseError) : Prop
  | scan (failure : ScanError) (hf : f = some failure) (he : e = .scan failure)
  | blame (l : Lexeme) (hl : l ∈ ls) (he : Blames e l)
  | missing (line : Nat) (hf : f = none) (he : e = .unexpectedToken .indent .eos line)

namespace Cursor.Fails

/-- No move adds a lexeme or changes what is wrong behind the last one. -/
theorem moves (hmove : Moves c c') (h : c.Fails f ls) : c'.Fails f ls := by
  cases hmove with
  | seen => exact ⟨h.failure, h.rest⟩
  | take | close => exact ⟨h.failure, fun l hl => h.rest l (List.mem_of_mem_drop hl)⟩

theorem travels (h : c.Fails f ls) (htravels : c.Travels c') : c'.Fails f ls :=
  htravels.keeps (fun _ _ => moves) h

/-- In front of a failure there is no end of the template to look at. -/
theorem next_mem (h : c.Fails f ls) (hgoes : c.Goes) :
    c.next ∈ ls ∨ f = none ∧ c.next.kind = .eos := by
  cases hrest : c.rest with
  | nil =>
    have hnext : c.next = ⟨.eos, c.line⟩ := by simp [Cursor.next, hrest]
    exact .inr ⟨h.failure.symm.trans (hgoes hrest), by rw [hnext]; rfl⟩
  | cons l rest =>
    have hnext : c.next = l := by simp [Cursor.next, hrest]
    exact .inl (h.rest _ (by rw [hnext, hrest]; exact .head _))

/-- What is wrong where the cursor is. -/
theorem faults {e : ParseError} (h : c.Fails f ls) (hrefuses : c.Refuses e) : Faults f ls e := by
  cases hrefuses with
  | scan failure hrest hfailure => exact .scan failure (h.failure.symm.trans hfailure) rfl
  | text hgoes hkind =>
    rcases h.next_mem hgoes with hnext | ⟨hf, heos⟩
    · exact .blame c.next hnext (.inl rfl)
    · exact .missing c.next.line hf (by rw [heos])
  | attributes hkind =>
    -- An attribute list is not the end of the template, so it is on the list.
    have heos : c.next.kind ≠ .eos := by simp [hkind]
    have hnext := (h.next_mem (goes_of_next heos)).resolve_right fun hend => heos hend.2
    exact .blame c.next hnext (.inr (by rw [hkind]))

end Cursor.Fails

theorem faults_of_read {e : ParseError} (h : c.Fails f ls) (hread : read c = .error e) :
    Faults f ls e := by
  obtain ⟨c', htravels, hrefuses⟩ := stumbles_of_read hread
  exact (h.travels htravels).faults hrefuses

/-- A document ends where the template ends. -/
theorem end_of_read {root : Block} (h : c.Fails f ls) (hread : read c = .ok root) :
    f = none ∨ ∃ l ∈ ls, l.kind = .eos := by
  obtain ⟨c', -, hreads⟩ := exists_reads hread
  obtain ⟨hgoes, heos⟩ := hreads.halts
  rcases (h.travels hreads.travels).next_mem hgoes with hnext | ⟨hf, -⟩
  · exact .inr ⟨c'.next, hnext, heos⟩
  · exact .inl hf

/-- In front of a failure no document can be read. -/
theorem read_of_fails {f : ScanError} (hls : ∀ l ∈ ls, l.kind ≠ .eos) (h : c.Fails (some f) ls) :
    ∃ e, read c = .error e ∧ (e = .scan f ∨ ∃ l ∈ ls, Blames e l) := by
  cases hread : read c with
  | error e =>
    refine ⟨e, rfl, ?_⟩
    cases faults_of_read h hread with
    | scan failure hf he =>
      obtain rfl := Option.some.inj hf
      exact .inl he
    | blame l hl he => exact .inr ⟨l, hl, he⟩
    | missing line hf he => cases hf
  | ok root =>
    rcases end_of_read h hread with hf | ⟨l, hl, heos⟩
    · cases hf
    · exact absurd heos (hls l hl)

end Offside.Reading
