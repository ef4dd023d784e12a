import Offside.CommandLine
import Offside.Proofs.Document.Failing
import Offside.Proofs.Document.Streaming
import Offside.Proofs.General

/-!
# Reading templates is reading their lexemes

Templates are scanned and read hand in hand, but what comes out is what the grammar
makes of the list of all lexemes. Where there is no such list, since scanning fails,
reading fails as well: with the same failure, or before it comes to it.

So a template with markup has a document, and a template with a document has lexemes.
The command prints its three formats for fewer and fewer templates in that order.
-/

set_option autoImplicit false

namespace Offside

open Reading (Cursor Blames)

/-- The document that a list of lexemes stands for. -/
def Reading.ofLexemes (ls : List Lexeme) : Except ParseError Block :=
  read { rest := ls }

variable {layout : Layout} {source : String}

theorem parse_eq_ofLexemes {ls : List Lexeme}
    (h : tokenize layout source = .ok ls) : parse layout source = Reading.ofLexemes ls := by
  rw [tokenize_eq_tape, Tape.result_eq_ok_iff] at h
  rw [parse_eq_read, Cursor.ofTape, h.1, h.2]
  rfl

/-- A tape that fails does not come to the end of its template. -/
theorem Scanner.kind_ne_eos_of_failure {s : Scanner} {e : ScanError} (h : s.tape.failure = some e) :
    ∀ l ∈ s.tape.lexemes, l.kind ≠ .eos := by
  obtain ⟨front, hfront, ⟨e, -, hscans⟩ | ⟨hfailure, -⟩⟩ := s.exists_front_of_scans
  · rw [Tape.lexemes, hscans]
    exact List.forall_mem_map.2 hfront
  · cases h.symm.trans hfailure

theorem parse_of_error {e : ScanError} (h : tokenize layout source = .error e) :
    ∃ e', parse layout source = .error e' ∧
      (e' = .scan e ∨ ∃ l ∈ (Scanner.ofSource layout source).tape.lexemes, Blames e' l) := by
  rw [tokenize_eq_tape, Tape.result_eq_error_iff] at h
  rw [parse_eq_read]
  exact Reading.read_of_fails (Scanner.kind_ne_eos_of_failure h) ⟨h, fun l hl => hl⟩

/-- A template with a document has lexemes. -/
theorem tokenize_of_parse {root : Block}
    (h : parse layout source = .ok root) : ∃ ls, tokenize layout source = .ok ls := by
  match hls : tokenize layout source with
  | .ok ls => exact ⟨ls, rfl⟩
  | .error e =>
    obtain ⟨e', he', -⟩ := parse_of_error hls
    rw [h] at he'
    cases he'

/-- A template with markup has a document. -/
theorem Engine.parse_of_renderNamed {e : Engine} {name out : String}
    (h : e.renderNamed name source = .ok out) :
    ∃ root, parse e.renderer.layout source = .ok root := by
  unfold renderNamed at h
  match hroot : parse e.renderer.layout source with
  | .ok root => exact ⟨root, rfl⟩
  | .error error =>
    rw [hroot] at h
    cases h

namespace CommandLine

/-- What the command prints for a source. -/
def output (engine : Engine) (format : Format) (source name : String) : Except Error String := do
  let layout := engine.renderer.layout
  match format with
  | .lexemes =>
    let lexemes ← (tokenize layout source).mapError fun e => Error.ofParse name (.scan e)
    return (Json.array (lexemes.map Lexeme.toJson)).pretty
  | .document =>
    let root ← (parse layout source).mapError (Error.ofParse name)
    return root.toJson.pretty
  | .markup => engine.renderNamed name source

/-- What the command prints is put together from the configuration, the source and the format. -/
theorem fst_compile (L : Configuration.Library) (disk : Disk) (input : Option String)
    {i : Invocation} (hi : i.cache = false) (format : Format) (path : String) :
    (compile L disk input { i with format := some format } path).1 = (do
      let configuration ← (Configuration.load L disk (i.layers L)).mapError Error.configuration
      let engine ← Engine.ofConfiguration configuration
      let (source, name) ← readSource disk input path
      output engine format source name) := by
  have hlayers : Invocation.layers L { i with format := some format } = i.layers L := rfl
  unfold compile
  rw [hlayers]
  cases (Configuration.load L disk (i.layers L)).mapError Error.configuration with
  | error error => rfl
  | ok configuration =>
    dsimp only [bind, Except.bind]
    cases Engine.ofConfiguration configuration with
    | error error => rfl
    | ok engine =>
      simp only [hi, Bool.false_eq_true, if_false]
      show readSource disk input path >>= _ = readSource disk input path >>= _
      cases readSource disk input path with
      | error error => rfl
      | ok out => cases format <;> rfl

/-- If one format is printed whenever another one is, so it is by the command. -/
theorem fst_compile_of_output {format format' : Format}
    (h : ∀ engine source name, (∃ out, output engine format source name = .ok out) →
      ∃ out, output engine format' source name = .ok out)
    {L : Configuration.Library} {disk : Disk} {input : Option String} {i : Invocation}
    {path : String} (hi : i.cache = false)
    (hcompile : ∃ out, (compile L disk input { i with format := some format } path).1 = .ok out) :
    ∃ out, (compile L disk input { i with format := some format' } path).1 = .ok out := by
  rw [fst_compile L disk input hi format] at hcompile
  rw [fst_compile L disk input hi format']
  refine ok_bind_mono (fun configuration => ?_) hcompile
  refine ok_bind_mono fun engine => ?_
  exact ok_bind_mono fun (source, name) => h engine source name

theorem output_document_of_markup (engine : Engine) (source name : String)
    (h : ∃ out, output engine .markup source name = .ok out) :
    ∃ out, output engine .document source name = .ok out := by
  obtain ⟨out, h⟩ := h
  obtain ⟨root, hroot⟩ := Engine.parse_of_renderNamed h
  refine ⟨root.toJson.pretty, ?_⟩
  show (parse engine.renderer.layout source).mapError (Error.ofParse name) >>= _ = _
  rw [hroot]
  rfl

theorem output_lexemes_of_document (engine : Engine) (source name : String)
    (h : ∃ out, output engine .document source name = .ok out) :
    ∃ out, output engine .lexemes source name = .ok out := by
  obtain ⟨out, h⟩ := h
  have h : (parse engine.renderer.layout source).mapError (Error.ofParse name) >>=
      (fun root => pure root.toJson.pretty) = .ok out := h
  match hroot : parse engine.renderer.layout source with
  | .error error =>
    rw [hroot] at h
    cases h
  | .ok root =>
    obtain ⟨ls, hls⟩ := tokenize_of_parse hroot
    refine ⟨(Json.array (ls.map Lexeme.toJson)).pretty, ?_⟩
    show (tokenize engine.renderer.layout source).mapError _ >>= _ = _
    rw [hls]
    rfl

end CommandLine

/-- Reading a template from its stream of lexemes is reading the list of its lexemes:
the document, its lines and the errors are the same. If scanning fails, reading fails
with the same failure or with an error about a lexeme in front of it. Hence whatever
can be rendered can be parsed, and whatever can be parsed can be scanned, also by the
command. -/
theorem parse_refines_reading :
    (∀ (layout : Layout) (source : String),
      (∀ ls, tokenize layout source = .ok ls → parse layout source = Reading.ofLexemes ls) ∧
      (∀ e, tokenize layout source = .error e → ∃ e', parse layout source = .error e' ∧
        (e' = .scan e ∨
          ∃ l ∈ (Scanner.ofSource layout source).tape.lexemes, Blames e' l)) ∧
      (∀ root, parse layout source = .ok root → ∃ ls, tokenize layout source = .ok ls)) ∧
    (∀ (engine : Engine) (source out : String), engine.render source = .ok out →
      ∃ root, parse engine.renderer.layout source = .ok root) ∧
    ∀ (L : Configuration.Library) (disk : Disk) (input : Option String)
      (i : CommandLine.Invocation) (path : String), i.cache = false →
      let prints (format : CommandLine.Format) : Prop :=
        ∃ out, (CommandLine.compile L disk input { i with format := some format } path).1 = .ok out
      (prints .markup → prints .document) ∧ (prints .document → prints .lexemes) := by
  refine ⟨fun layout source => ⟨fun ls => parse_eq_ofLexemes, fun e => parse_of_error,
    fun root => tokenize_of_parse⟩, fun engine source out => Engine.parse_of_renderNamed, ?_⟩
  intro L disk input i path hi
  exact ⟨CommandLine.fst_compile_of_output CommandLine.output_document_of_markup hi,
    CommandLine.fst_compile_of_output CommandLine.output_lexemes_of_document hi⟩

/-- Shorthands on two levels, which the stream puts back, and the same template with
one more line whose width is no open level. -/
theorem parse_refines_reading_shorthands :
    (tokenize {} ".a\n  #b c" = .ok
        [⟨.className "a", 1⟩, ⟨.indent, 2⟩, ⟨.idName "b", 2⟩, ⟨.text " c", 2⟩, ⟨.outdent, 2⟩,
          ⟨.eos, 2⟩] ∧
      parse {} ".a\n  #b c" = Reading.ofLexemes
        [⟨.className "a", 1⟩, ⟨.indent, 2⟩, ⟨.idName "b", 2⟩, ⟨.text " c", 2⟩, ⟨.outdent, 2⟩,
          ⟨.eos, 2⟩]) ∧
    (tokenize {} ".a\n  #b c\n d" = .error (.malformedIndentation 3) ∧
      ∃ e, parse {} ".a\n  #b c\n d" = .error e ∧ (e = .scan (.malformedIndentation 3) ∨
        ∃ l ∈ (Scanner.ofSource {} ".a\n  #b c\n d").tape.lexemes, Blames e l)) := by
  have hok : tokenize {} ".a\n  #b c" = .ok
      [⟨.className "a", 1⟩, ⟨.indent, 2⟩, ⟨.idName "b", 2⟩, ⟨.text " c", 2⟩, ⟨.outdent, 2⟩,
        ⟨.eos, 2⟩] := by
    decide +kernel
  have herror : tokenize {} ".a\n  #b c\n d" = .error (.malformedIndentation 3) := by
    decide +kernel
  exact ⟨⟨hok, (parse_refines_reading.1 _ _).1 _ hok⟩,
    herror, (parse_refines_reading.1 _ _).2.1 _ herror⟩

end Offside
