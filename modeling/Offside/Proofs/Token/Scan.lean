import Offside.Proofs.Token.Step
import Offside.Token.Stream

/-!
# What a scanner scans

A lexeme does not say whether it was scanned inside a verbatim region, but an indent
inside a region opens no level. `Scan` keeps the two together.

* `Scanner.tape` is everything a scanner scans up to the end of the template or the
  first failure. `lexemes_eq_tape` says that `Scanner.lexemes` is its reading.
* `Emits s ls s'` says that a scanner hands out `ls` on its way from `s` to `s'`.
* `Stream.run` takes a stream through any calls of `advance` and `predict`, also
  beyond failures, and `Stream.scans` is what is scanned meanwhile. `scanner_perform`
  ties the two to each other: a call scans what it has to and nothing more.
-/

set_option autoImplicit false

namespace Offside

/-- A lexeme as it was scanned. -/
structure Scan where
  lexeme : Lexeme
  /-- Whether a verbatim region was open. -/
  verbatim : Bool
deriving DecidableEq, Repr

namespace Scan

/-- The kind of a scan's lexeme. -/
def kind (t : Scan) : Token.Kind :=
  t.lexeme.kind

/-- Whether a scan opens a level: an indent does, outside of verbatim regions. -/
def opens (t : Scan) : Bool :=
  t.kind == .indent && !t.verbatim

/-- Whether a scan closes a level. -/
def closes (t : Scan) : Bool :=
  t.kind == .outdent

end Scan

/-! ### Scanning to the end -/

/-- What is scanned up to the end of a template, or up to a failure. -/
structure Tape where
  scans : List Scan
  failure : Option ScanError := none
deriving DecidableEq, Repr

namespace Tape

/-- The tape with one more scan in front. -/
def cons (t : Scan) (tape : Tape) : Tape :=
  { tape with scans := t :: tape.scans }

/-- The lexemes on a tape. -/
def lexemes (tape : Tape) : List Lexeme :=
  tape.scans.map (·.lexeme)

/-- All lexemes of a tape, unless it ends in a failure. -/
def result (tape : Tape) : Except ScanError (List Lexeme) :=
  match tape.failure with
  | none => .ok tape.lexemes
  | some e => .error e

@[simp] theorem scans_cons (t : Scan) (tape : Tape) : (tape.cons t).scans = t :: tape.scans :=
  rfl

@[simp] theorem failure_cons (t : Scan) (tape : Tape) : (tape.cons t).failure = tape.failure :=
  rfl

@[simp] theorem lexemes_cons (t : Scan) (tape : Tape) :
    (tape.cons t).lexemes = t.lexeme :: tape.lexemes :=
  rfl

theorem result_eq_ok_iff {tape : Tape} {ls : List Lexeme} :
    tape.result = .ok ls ↔ tape.failure = none ∧ tape.lexemes = ls := by
  unfold result
  split <;> simp_all

theorem result_eq_error_iff {tape : Tape} {e : ScanError} :
    tape.result = .error e ↔ tape.failure = some e := by
  unfold result
  split <;> simp_all

theorem result_cons (t : Scan) (tape : Tape) :
    (tape.cons t).result = tape.result.map (t.lexeme :: ·) := by
  unfold result
  rw [failure_cons]
  split <;> rfl

end Tape

namespace Scanner

/-- What a scanner scans up to the end of the template or the first failure. -/
def tape (s : Scanner) : Tape :=
  match h : s.next with
  | (.error e, _) => ⟨[], some e⟩
  | (.ok l, s') =>
    if hl : l.kind = .eos then ⟨[⟨l, s.region.isSome⟩], none⟩
    else
      have : s'.size < s.size := size_lt_of_next h hl
      s'.tape.cons ⟨l, s.region.isSome⟩
termination_by s.size

variable {s s' : Scanner}

theorem tape_of_error {e : ScanError} (h : s.next = (.error e, s')) : s.tape = ⟨[], some e⟩ := by
  rw [tape]
  split <;> simp_all

theorem tape_of_eos {l : Lexeme} (h : s.next = (.ok l, s'))
    (hl : l.kind = .eos) : s.tape = ⟨[⟨l, s.region.isSome⟩], none⟩ := by
  rw [tape]
  split <;> simp_all

theorem tape_of_ok {l : Lexeme} (h : s.next = (.ok l, s'))
    (hl : l.kind ≠ .eos) : s.tape = s'.tape.cons ⟨l, s.region.isSome⟩ := by
  rw [tape]
  split <;> simp_all

/-- Induction along a tape: over the failure or the end it stops at, and over each
lexeme in front. -/
theorem tape_induction {motive : Scanner → Prop}
    (error : ∀ s e s', s.next = (.error e, s') → motive s)
    (eos : ∀ s l s', s.next = (.ok l, s') → l.kind = .eos → motive s)
    (step : ∀ s l s', s.next = (.ok l, s') → l.kind ≠ .eos → motive s' → motive s)
    (s : Scanner) : motive s := by
  -- Each lexeme in front of the end makes what is left to scan smaller.
  induction hn : s.size using Nat.strongRecOn generalizing s with
  | _ n ih =>
    match h : s.next with
    | (.error e, s') => exact error s e s' h
    | (.ok l, s') =>
      by_cases hl : l.kind = .eos
      · exact eos s l s' h hl
      · exact step s l s' h hl (ih _ (hn ▸ size_lt_of_next h hl) s' rfl)

/-- Only the last scan on a tape can be the end of the template, and it is, unless the tape
fails. -/
theorem exists_front_of_scans (s : Scanner) : ∃ front, (∀ t ∈ front, t.kind ≠ .eos) ∧
    ((∃ e, s.tape.failure = some e ∧ s.tape.scans = front) ∨
      s.tape.failure = none ∧ ∃ t, t.kind = .eos ∧ s.tape.scans = front ++ [t]) := by
  induction s using tape_induction with
  | error s e s' hnext =>
    rw [tape_of_error hnext]
    exact ⟨[], nofun, .inl ⟨e, rfl, rfl⟩⟩
  | eos s l s' hnext hl =>
    rw [tape_of_eos hnext hl]
    exact ⟨[], nofun, .inr ⟨rfl, ⟨l, s.region.isSome⟩, hl, rfl⟩⟩
  | step s l s' hnext hl ih =>
    obtain ⟨front, hfront, htape⟩ := ih
    rw [tape_of_ok hnext hl]
    refine ⟨⟨l, s.region.isSome⟩ :: front, List.forall_mem_cons.2 ⟨hl, hfront⟩, ?_⟩
    obtain ⟨e, hfailure, hscans⟩ | ⟨hfailure, t, ht, hscans⟩ := htape
    · exact .inl ⟨e, hfailure, congrArg _ hscans⟩
    · exact .inr ⟨hfailure, t, ht, congrArg _ hscans⟩

theorem lexemes_eq_tape (s : Scanner) : s.lexemes = s.tape.result := by
  induction s using tape_induction with
  | error s e s' h =>
    rw [tape_of_error h, lexemes]
    split <;> simp_all [Tape.result]
  | eos s l s' h hl =>
    rw [tape_of_eos h hl, lexemes]
    split <;> simp_all [Tape.result, Tape.lexemes]
  | step s l s' h hl ih =>
    rw [tape_of_ok h hl, Tape.result_cons, ← ih, lexemes]
    split <;> simp_all

end Scanner

theorem tokenize_eq_tape (layout : Layout) (source : String) :
    tokenize layout source = (Scanner.ofSource layout source).tape.result :=
  Scanner.lexemes_eq_tape _

/-! ### Scanning on demand -/

namespace Scanner

/-- Scans `n` lexemes, or as many as there are in front of a failure. -/
def scanUpTo : Nat → Scanner → List Scan × Scanner
  | 0, s => ([], s)
  | n + 1, s =>
    match s.next with
    | (.error _, s') => ([], s')
    | (.ok l, s') =>
      let (ts, s'') := s'.scanUpTo n
      (⟨l, s.region.isSome⟩ :: ts, s'')

variable {s s' : Scanner}

theorem scanUpTo_of_error {e : ScanError} (n : Nat)
    (h : s.next = (.error e, s')) : s.scanUpTo (n + 1) = ([], s') := by
  simp [scanUpTo, h]

theorem scanUpTo_of_ok {l : Lexeme} (n : Nat) (h : s.next = (.ok l, s')) :
    s.scanUpTo (n + 1) =
      (⟨l, s.region.isSome⟩ :: (s'.scanUpTo n).1, (s'.scanUpTo n).2) := by
  simp [scanUpTo, h]

/-- What is scanned up to a place of the tape is what stands in front of it. -/
theorem fst_scanUpTo {k : Nat} (hk : k ≤ s.tape.scans.length) :
    (s.scanUpTo k).1 = s.tape.scans.take k := by
  induction s using tape_induction generalizing k with
  | error s e s' hnext =>
    rw [tape_of_error hnext] at hk ⊢
    obtain rfl := Nat.le_zero.1 hk
    rfl
  | eos s l s' hnext hl =>
    rw [tape_of_eos hnext hl] at hk ⊢
    cases k with
    | zero => rfl
    | succ k =>
      obtain rfl : k = 0 := by simpa using hk
      rw [scanUpTo_of_ok 0 hnext]
      rfl
  | step s l s' hnext hl ih =>
    rw [tape_of_ok hnext hl] at hk ⊢
    cases k with
    | zero => rfl
    | succ k =>
      rw [scanUpTo_of_ok k hnext]
      exact congrArg _ (ih (Nat.le_of_succ_le_succ hk))

/-- A scan on a tape is what the scanner that has come to its place hands out. -/
theorem next_scanUpTo {k : Nat} {t : Scan} (hk : s.tape.scans[k]? = some t) :
    (s.scanUpTo k).2.next = (.ok t.lexeme, (s.scanUpTo (k + 1)).2) ∧
      t.verbatim = (s.scanUpTo k).2.region.isSome := by
  induction s using tape_induction generalizing k with
  | error s e s' hnext => simp [tape_of_error hnext] at hk
  | eos s l s' hnext hl =>
    rw [tape_of_eos hnext hl] at hk
    cases k with
    | zero =>
      obtain rfl := Option.some.inj hk
      rw [scanUpTo_of_ok 0 hnext]
      exact ⟨hnext, rfl⟩
    | succ k => simp at hk
  | step s l s' hnext hl ih =>
    rw [tape_of_ok hnext hl] at hk
    rw [scanUpTo_of_ok k hnext]
    cases k with
    | zero =>
      obtain rfl := Option.some.inj hk
      exact ⟨hnext, rfl⟩
    | succ k =>
      rw [scanUpTo_of_ok k hnext]
      exact ih hk

/-! ### What a scanner hands out -/

/-- A scanner hands out some lexemes, none of which ends the template. -/
inductive Emits : Scanner → List Lexeme → Scanner → Prop
  | refl (s : Scanner) : Emits s [] s
  | step {s s₁ s' : Scanner} {l : Lexeme} {ls : List Lexeme} (hnext : s.next = (.ok l, s₁))
      (hl : l.kind ≠ .eos) (h : Emits s₁ ls s') : Emits s (l :: ls) s'

theorem Emits.single {l : Lexeme} (hnext : s.next = (.ok l, s'))
    (hl : l.kind ≠ .eos) : Emits s [l] s' :=
  .step hnext hl (.refl s')

theorem Emits.trans {s₁ : Scanner} {ls ls' : List Lexeme} (h : Emits s ls s₁)
    (h' : Emits s₁ ls' s') : Emits s (ls ++ ls') s' := by
  induction h with
  | refl s => exact h'
  | step hnext hl _ ih => exact .step hnext hl (ih h')

/-- What was handed out is the front of the tape. -/
theorem Emits.tape {ls : List Lexeme} (h : Emits s ls s') :
    s.tape.lexemes = ls ++ s'.tape.lexemes ∧ s.tape.failure = s'.tape.failure := by
  induction h with
  | refl s => exact ⟨rfl, rfl⟩
  | step hnext hl _ ih =>
    rw [tape_of_ok hnext hl]
    exact ⟨congrArg (_ :: ·) ih.1, ih.2⟩

/-- Outdents that were put aside are handed out one by one. -/
theorem emits_deferred (hdeferred : s.deferred = []) (hlast : s.last = some .outdent)
    (n line : Nat) :
    Emits { s with deferred := List.replicate n ⟨.outdent, line⟩ }
      (List.replicate n ⟨.outdent, line⟩) s := by
  induction n with
  | zero =>
    have hs : { s with deferred := [] } = s := by rw [← hdeferred]
    rw [List.replicate_zero, hs]
    exact .refl s
  | succ n ih =>
    have hnext : { s with deferred := List.replicate (n + 1) ⟨.outdent, line⟩ }.next =
        (.ok ⟨.outdent, line⟩, { s with deferred := List.replicate n ⟨.outdent, line⟩ }) := by
      show (_, { s with last := some .outdent, deferred := _ }) = _
      rw [← hlast]
    exact .step hnext (by rintro ⟨⟩) ih

end Scanner

/-- A call that a stream answers without being given a lexeme. -/
inductive Call where
  | advance
  | predict (n : Nat)
deriving DecidableEq, Repr

namespace Call

/-- The answer to a call, and the stream behind it. -/
def perform : Call → Stream → Except ScanError Lexeme × Stream
  | advance, s => s.advance
  | predict n, s => s.predict n

/-- How many lexemes a stream has to scan for a call. -/
def demand : Call → Stream → Nat
  | advance, s => 1 - s.ahead.length
  | predict n, s => max n 1 - s.ahead.length

/-- What a stream scans for a call. -/
def scans (call : Call) (s : Stream) : List Scan :=
  (s.scanner.scanUpTo (call.demand s)).1

end Call

namespace Stream

/-- Looking ahead scans what is missing and keeps it. -/
theorem lookAhead_eq (n : Nat) (s : Stream) :
    (s.lookAhead n).2 =
      { scanner := (s.scanner.scanUpTo (n + 1 - s.ahead.length)).2
        ahead := s.ahead ++
          (s.scanner.scanUpTo (n + 1 - s.ahead.length)).1.map (·.lexeme) } := by
  fun_induction lookAhead n s with
  | case2 n scanner l ahead result s hahead ih =>
    obtain rfl : s = _ := (congrArg Prod.snd hahead).symm.trans ih
    simp
  | case5 n scanner l scanner' hnext result s hahead ih =>
    obtain rfl : s = _ := (congrArg Prod.snd hahead).symm.trans ih
    simp [Scanner.scanUpTo_of_ok _ hnext]
  | _ => simp [Scanner.scanUpTo, *]

/-- A call moves the scanner exactly behind what it scans. -/
theorem scanner_perform (call : Call) (s : Stream) :
    (call.perform s).2.scanner = (s.scanner.scanUpTo (call.demand s)).2 := by
  cases call with
  | advance =>
    obtain ⟨scanner, ahead⟩ := s
    cases ahead with
    | nil =>
      rcases h : scanner.next with ⟨e | l, scanner'⟩ <;>
        simp [Call.perform, Call.demand, advance, h, Scanner.scanUpTo]
    | cons l ahead => simp [Call.perform, Call.demand, advance, Scanner.scanUpTo]
  | predict n =>
    -- Predicting nothing counts as predicting one lexeme.
    have hn : n - 1 + 1 = max n 1 := by omega
    rw [Call.perform, predict, lookAhead_eq, hn]
    rfl

/-- The stream behind some calls, whatever their answers are. -/
def run (s : Stream) : List Call → Stream
  | [] => s
  | call :: calls => (call.perform s).2.run calls

/-- What a stream scans for some calls. -/
def scans (s : Stream) : List Call → List Scan
  | [] => []
  | call :: calls => call.scans s ++ (call.perform s).2.scans calls

end Stream

end Offside
