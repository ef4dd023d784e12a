import Mathlib.Data.List.Basic
import Offside.Proofs.Token.Scan

/-!
# Looking ahead

Looking at lexemes before they are taken makes a stream scan earlier than it would
otherwise, by any distance and across regions and levels. It changes nothing about what
is taken later.

`Stream.upcoming` is what a stream has to offer: the answers of repeated calls of
`advance`. Taking a lexeme drops the first of them (`upcoming_advance`), and looking
ahead leaves them all as they are (`upcoming_predict`). `predict_transparent` is what
follows for any calls in any order.
-/

set_option autoImplicit false

namespace Offside

namespace Stream

variable {s : Stream} {l : Lexeme}

/-- The answers to some calls, one after the other. -/
def answers (s : Stream) : List Call → List (Except ScanError Lexeme)
  | [] => []
  | call :: calls => (call.perform s).1 :: (call.perform s).2.answers calls

/-- What the `n`-th of repeated calls of `advance` answers, counted from 0. -/
def upcoming (s : Stream) (n : Nat) : Except ScanError Lexeme :=
  (s.run (List.replicate n .advance)).advance.1

/-- Taking a lexeme moves what is upcoming by one. -/
theorem upcoming_advance (s : Stream) (n : Nat) : s.advance.2.upcoming n = s.upcoming (n + 1) :=
  rfl

/-- Repeated calls of `advance` give what is upcoming. -/
theorem answers_replicate (s : Stream) (n : Nat) :
    s.answers (List.replicate n .advance) = (List.range n).map s.upcoming := by
  induction n generalizing s with
  | zero => rfl
  | succ n ih =>
    have hrest : s.advance.2.answers (List.replicate n .advance) =
        (List.range n).map fun k => s.upcoming (k + 1) := ih s.advance.2
    rw [List.range_succ_eq_map, List.map_cons, List.map_map]
    exact congrArg (s.advance.1 :: ·) hrest

/-! ### One call -/

/-- The stream with one more lexeme in front that was looked at but not taken. -/
def withAhead (l : Lexeme) (s : Stream) : Stream :=
  { s with ahead := l :: s.ahead }

/-- Streams that offer the same offer the same behind a lexeme. -/
theorem upcoming_withAhead {s s' : Stream} (l : Lexeme) (h : s'.upcoming = s.upcoming) :
    (s'.withAhead l).upcoming = (s.withAhead l).upcoming := by
  funext n
  cases n with
  | zero => rfl
  | succ n =>
    show s'.upcoming n = s.upcoming n
    rw [h]

/-- It makes no difference whether the next lexeme is scanned now or was scanned before. -/
theorem upcoming_scanned {scanner scanner' : Scanner} (h : scanner.next = (.ok l, scanner')) :
    (Stream.mk scanner []).upcoming = ((Stream.mk scanner' []).withAhead l).upcoming := by
  have hadvance :
      (Stream.mk scanner []).advance = ((Stream.mk scanner' []).withAhead l).advance := by
    simp [advance, withAhead, h]
  funext n
  cases n with
  | zero => exact congrArg Prod.fst hadvance
  | succ n => rw [← upcoming_advance, ← upcoming_advance, hadvance]

/-- Where looking ahead finds a lexeme, it is the one that is upcoming there, and what is
upcoming stays as it is. -/
theorem upcoming_lookAhead (n : Nat) (s : Stream) (h : (s.lookAhead n).1 = .ok l) :
    s.upcoming n = .ok l ∧ (s.lookAhead n).2.upcoming = s.upcoming := by
  -- The first lexeme is the same on both sides wherever it comes from, so what is left in
  -- each case is the stream behind it.
  fun_induction lookAhead n s with
  | case1 scanner first ahead => exact ⟨h, rfl⟩
  | case2 n scanner first ahead result s hs ih =>
    rw [hs] at ih
    obtain ⟨hfound, hrest⟩ := ih h
    exact ⟨hfound, upcoming_withAhead first hrest⟩
  | case3 scanner first scanner' hnext =>
    rw [upcoming_scanned hnext]
    exact ⟨h, rfl⟩
  | case4 scanner e scanner' hnext => cases h
  | case5 n scanner first scanner' hnext result s hs ih =>
    rw [hs] at ih
    obtain ⟨hfound, hrest⟩ := ih h
    rw [upcoming_scanned hnext]
    exact ⟨hfound, upcoming_withAhead first hrest⟩
  | case6 n scanner e scanner' hnext => cases h

theorem upcoming_predict {n : Nat} (h : (s.predict n).1 = .ok l) :
    s.upcoming (max n 1 - 1) = .ok l ∧ (s.predict n).2.upcoming = s.upcoming := by
  have hn : max n 1 - 1 = n - 1 := by omega
  rw [hn]
  exact upcoming_lookAhead (n - 1) s h

/-! ### Any calls -/

theorem exists_of_isOk {a : Except ScanError Lexeme} (h : a.isOk = true) : ∃ l, a = .ok l := by
  cases a with
  | error e => cases h
  | ok l => exact ⟨l, rfl⟩

/-- A call that succeeds leaves what is upcoming, less the lexeme that it takes. -/
theorem upcoming_perform (call : Call) (h : (call.perform s).1.isOk = true) (n : Nat) :
    (call.perform s).2.upcoming n = s.upcoming ([call].count .advance + n) := by
  cases call with
  | advance =>
    rw [List.count_singleton_self, Nat.add_comm]
    rfl
  | predict m =>
    obtain ⟨l, hl⟩ := exists_of_isOk h
    show (s.predict m).2.upcoming n = s.upcoming (0 + n)
    rw [(upcoming_predict hl).2, Nat.zero_add]

/-- What `advance` answers among some calls. -/
def taken (s : Stream) (calls : List Call) : List (Except ScanError Lexeme) :=
  ((calls.zip (s.answers calls)).filter (·.1 = .advance)).map Prod.snd

/-- If all calls succeed, lexemes are taken in the order in which they are upcoming. -/
theorem taken_eq {calls : List Call} (hok : ∀ a ∈ s.answers calls, a.isOk = true) :
    s.taken calls = (List.range (calls.count .advance)).map s.upcoming := by
  induction calls generalizing s with
  | nil => rfl
  | cons call calls ih =>
    obtain ⟨hfirst, hothers⟩ := List.forall_mem_cons.1 hok
    have hrest := ih hothers
    cases call with
    | advance =>
      rw [List.count_cons_self, List.range_succ_eq_map, List.map_cons, List.map_map]
      exact congrArg (s.advance.1 :: ·) hrest
    | predict n =>
      -- The lexeme that was found is not taken: it is upcoming still.
      obtain ⟨l, hl⟩ := exists_of_isOk hfirst
      rw [List.count_cons_of_ne (by simp), ← (upcoming_predict hl).2]
      exact hrest

/-- If all calls succeed, `predict` answers with what is upcoming behind the lexemes that
were taken before. -/
theorem answer_predict {calls : List Call} (hok : ∀ a ∈ s.answers calls, a.isOk = true)
    {i n : Nat} (hi : calls[i]? = some (.predict n)) :
    (s.answers calls)[i]? =
      some (s.upcoming ((calls.take i).count .advance + (max n 1 - 1))) := by
  induction calls generalizing s i with
  | nil => simp at hi
  | cons call calls ih =>
    obtain ⟨hfirst, hothers⟩ := List.forall_mem_cons.1 hok
    cases i with
    | zero =>
      obtain rfl := Option.some.inj hi
      obtain ⟨l, hl⟩ := exists_of_isOk hfirst
      show some (s.predict n).1 = some (s.upcoming (0 + (max n 1 - 1)))
      rw [Nat.zero_add, (upcoming_predict hl).1]
      exact congrArg some hl
    | succ i =>
      have hrest : (s.answers (call :: calls))[i + 1]? = _ := ih hothers hi
      have hcount : ((call :: calls).take (i + 1)).count .advance =
          [call].count .advance + (calls.take i).count .advance := by
        rw [List.take_succ_cons, List.count_cons, List.count_singleton, Nat.add_comm]
      rw [hrest, upcoming_perform call hfirst, hcount, Nat.add_assoc]

end Stream

/-- Looking ahead is transparent. Of any calls of `advance` and `predict` on a new stream,
none of which fails, those of `advance` answer with the lexemes that repeated calls of
`advance` alone give, in order; and each call of `predict` answers with the lexeme as far
behind those taken before as it asks for, at least with the next one. -/
theorem predict_transparent (layout : Layout) (source : String) (calls : List Call)
    (hok : ∀ a ∈ (Stream.ofSource layout source).answers calls, a.isOk = true) :
    let s := Stream.ofSource layout source
    s.taken calls = s.answers (List.replicate (calls.count .advance) .advance) ∧
      ∀ i n, calls[i]? = some (.predict n) →
        (s.answers calls)[i]? =
          (s.answers
            (List.replicate ((calls.take i).count .advance + max n 1) .advance)).getLast? := by
  intro s
  constructor
  · rw [Stream.taken_eq hok, Stream.answers_replicate]
  · intro i n hi
    have hplace : (calls.take i).count .advance + max n 1 =
        (calls.take i).count .advance + (max n 1 - 1) + 1 := by
      omega
    rw [Stream.answer_predict hok hi, hplace, Stream.answers_replicate, List.range_succ,
      List.map_append, List.map_singleton, List.getLast?_concat]

/-- Looking past the end of a text region and past the outdents that close two levels,
then taking lexemes one by one. -/
theorem predict_transparent_list :
    let s := Stream.ofSource {} "ul\n  li\n    | a\n      b\np"
    let calls : List Call := [.advance, .predict 9, .advance, .predict 0, .advance, .predict 2]
    (∀ a ∈ s.answers calls, a.isOk = true) ∧
      s.taken calls = [.ok ⟨.tag "ul", 1⟩, .ok ⟨.indent, 2⟩, .ok ⟨.tag "li", 2⟩] ∧
      (s.answers calls)[1]? = some (.ok ⟨.outdent, 5⟩) := by
  intro s calls
  have hok : ∀ a ∈ s.answers calls, a.isOk = true := by decide +kernel
  obtain ⟨htaken, hpredicted⟩ := predict_transparent {} "ul\n  li\n    | a\n      b\np" calls hok
  refine ⟨hok, htaken.trans ?_, (hpredicted 1 9 rfl).trans ?_⟩
  · decide +kernel
  · decide +kernel

end Offside
