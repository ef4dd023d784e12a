import Mathlib.Data.List.TakeWhile
import Offside.Indentation

/-!
# Open levels ascend

The open widths ascend from the root (`Indentation.Ascending`): opening a level keeps
this up, and so does closing some of them. Closing levels down to a width takes away
the innermost ones, as many as it says, and leaves that width as the current one
(`closeTo?_eq_some`).

An `Edit` opens or closes levels, and may fail. No edits disturb the levels: one edit does to
them what it does to the plain list of all widths, root included (`perform_levels`), and so do
any number of edits (`levels_under_edits`).
-/

set_option autoImplicit false

namespace Offside.Indentation

/-- The open widths ascend, from the root on. -/
def Ascending (i : Indentation) : Prop :=
  i.levels.Pairwise (· < ·)

variable {i j : Indentation} {w : Nat}

theorem ascending_iff : i.Ascending ↔ (∀ w ∈ i.opened, 0 < w) ∧ i.opened.Pairwise (· > ·) := by
  simp [Ascending, levels, List.pairwise_reverse]

theorem ascending_empty : Ascending {} := by
  simp [ascending_iff]

/-- The current level is the innermost one. -/
theorem le_current (h : i.Ascending) (hw : w ∈ i.opened) : w ≤ i.current := by
  obtain ⟨-, h⟩ := ascending_iff.1 h
  obtain ⟨opened⟩ := i
  cases opened with
  | nil => simp at hw
  | cons v opened =>
    rcases List.mem_cons.1 hw with rfl | hw
    · exact Nat.le_refl _
    · exact Nat.le_of_lt (List.rel_of_pairwise_cons h hw)

theorem opened_push (hw : i.current < w) : (i.push w).opened = w :: i.opened := by
  rw [push, if_pos hw]

theorem Ascending.push (h : i.Ascending) (w : Nat) : (i.push w).Ascending := by
  by_cases hw : i.current < w
  · rw [ascending_iff, opened_push hw]
    obtain ⟨hpos, hpair⟩ := ascending_iff.1 h
    refine ⟨?_, ?_⟩
    · intro v hv
      rcases List.mem_cons.1 hv with rfl | hv
      · exact Nat.lt_of_le_of_lt (Nat.zero_le _) hw
      · exact hpos v hv
    · refine List.pairwise_cons.2 ⟨?_, hpair⟩
      intro v hv
      exact Nat.lt_of_le_of_lt (le_current h hv) hw
  · rwa [Indentation.push, if_neg hw]

/-- Closing innermost levels leaves ascending widths. -/
theorem Ascending.of_append (h : i.Ascending) {closed : List Nat}
    (hi : i.opened = closed ++ j.opened) : j.Ascending := by
  obtain ⟨hpos, hpair⟩ := ascending_iff.1 h
  rw [hi] at hpos hpair
  refine ascending_iff.2 ⟨?_, (List.pairwise_append.1 hpair).2.1⟩
  intro w hw
  exact hpos w (List.mem_append_right _ hw)

/-- A level that is open above others is wider than they are. -/
theorem current_lt_of_suffix (h : j.Ascending) (hsuffix : i.opened <:+ j.opened)
    (hdepth : i.depth < j.depth) : i.current < j.current := by
  obtain ⟨hpos, hpair⟩ := ascending_iff.1 h
  obtain ⟨closed, hclosed⟩ := hsuffix
  unfold depth at hdepth
  unfold current
  rw [← hclosed] at hpos hpair hdepth ⊢
  cases closed with
  | nil => exact absurd hdepth (Nat.lt_irrefl _)
  | cons w closed =>
    cases hopened : i.opened with
    | nil => exact hpos w List.mem_cons_self
    | cons v opened =>
      exact List.rel_of_pairwise_cons hpair (List.mem_append_right _ (by simp [hopened]))

theorem current_le_of_suffix (h : j.Ascending)
    (hsuffix : i.opened <:+ j.opened) : i.current ≤ j.current := by
  rcases Nat.lt_or_ge i.depth j.depth with hlt | hge
  · exact Nat.le_of_lt (current_lt_of_suffix h hsuffix hlt)
  · rw [current, current, hsuffix.eq_of_length_le hge]

/-- Closing levels down to a width takes away the innermost levels up to that
width, which is the current one then. -/
theorem closeTo?_eq_some {n : Nat} (h : i.closeTo? w = some (n, j)) :
    ∃ closed, i.opened = closed ++ j.opened ∧ closed.length = n ∧ w ∉ closed ∧ j.current = w := by
  unfold closeTo? at h
  simp only at h
  split at h
  · next hkept =>
    simp only [Option.some.injEq, Prod.mk.injEq] at h
    obtain ⟨hn, rfl⟩ := h
    have happ := List.takeWhile_append_dropWhile (p := (· ≠ w)) (l := i.opened)
    refine ⟨i.opened.takeWhile (· ≠ w), happ.symm, ?_, ?_, ?_⟩
    · have hlen := congrArg List.length happ
      rw [List.length_append] at hlen
      omega
    · intro hw
      have := List.mem_takeWhile_imp hw
      simp at this
    · cases hk : i.opened.dropWhile (· ≠ w) with
      | nil =>
        rw [hk] at hkept
        rcases hkept with rfl | hkept
        · rfl
        · exact absurd rfl hkept
      | cons v kept =>
        have hhead := List.head?_dropWhile_not (· ≠ w) i.opened
        rw [hk] at hhead
        simpa [current] using hhead
  · simp at h

/-- Closing down to a width below the current one closes some level. -/
theorem pos_of_closeTo? {n : Nat} (h : i.closeTo? w = some (n, j))
    (hw : w < i.current) : 0 < n := by
  obtain ⟨closed, hi, hn, -, hcurrent⟩ := closeTo?_eq_some h
  cases closed with
  | nil =>
    have : i.current = j.current := by rw [current, current, hi, List.nil_append]
    omega
  | cons v closed => simp [← hn]

theorem levels_cons (w : Nat) (opened : List Nat) :
    levels ⟨w :: opened⟩ = levels ⟨opened⟩ ++ [w] := by
  simp [levels]

/-- The innermost level stands last. -/
theorem levels_eq_concat (i : Indentation) : i.levels = i.levels.dropLast ++ [i.current] := by
  obtain ⟨opened⟩ := i
  cases opened with
  | nil => rfl
  | cons w opened => rw [levels_cons, List.dropLast_concat]; rfl

/-- The levels in front of the innermost one are narrower. -/
theorem Ascending.lt_current (h : i.Ascending) (hw : w ∈ i.levels.dropLast) : w < i.current := by
  rw [Ascending, levels_eq_concat, List.pairwise_append] at h
  exact h.2.2 w hw _ (List.mem_singleton_self _)

/-- Levels can be closed down to a width exactly if it is open. -/
theorem isSome_closeTo? : (i.closeTo? w).isSome ↔ w ∈ i.levels := by
  simp [closeTo?, levels]

/-- Closing levels down to an open width takes away the wider ones. -/
theorem closeTo?_of_mem_levels (h : i.Ascending) (hw : w ∈ i.levels) :
    ∃ j closed, i.closeTo? w = some (closed.length, j) ∧ i.levels = j.levels ++ closed ∧
      (∀ v ∈ closed, w < v) ∧ j.current = w ∧ j.Ascending := by
  obtain ⟨⟨n, j⟩, hclose⟩ := Option.isSome_iff_exists.1 (isSome_closeTo?.2 hw)
  obtain ⟨closed, hopened, rfl, -, rfl⟩ := closeTo?_eq_some hclose
  have hlevels : i.levels = j.levels ++ closed.reverse := by simp [levels, hopened]
  refine ⟨j, closed.reverse, by rwa [List.length_reverse], hlevels, ?_, rfl, h.of_append hopened⟩
  rw [Ascending, hlevels, List.pairwise_append] at h
  exact h.2.2 _ (by rw [levels_eq_concat]; simp)

/-! ### Runs of edits -/

/-- A call that changes the open levels. -/
inductive Edit where
  | push (width : Nat)
  | pop
  | closeTo (width : Nat)
deriving DecidableEq, Repr

/-- An answer with the levels behind it. A failure leaves them as they are. -/
def orSame (i : Indentation) : Option (Nat × Indentation) → Option Nat × Indentation
  | some (answer, j) => (some answer, j)
  | none => (none, i)

namespace Edit

/-- The answer to an edit, and the levels behind it. -/
def perform : Edit → Indentation → Option Nat × Indentation
  | push width, i => (none, i.push width)
  | pop, i => i.orSame i.pop?
  | closeTo width, i => i.orSame (i.closeTo? width)

/-- An edit of a list of widths, where the root is an entry like all others. -/
def onWidths : Edit → List Nat → Option Nat × List Nat
  | push width, ws => (none, if ws.getLastD 0 < width then ws ++ [width] else ws)
  | pop, ws => if 1 < ws.length then (ws.getLast?, ws.dropLast) else (none, ws)
  | closeTo width, ws =>
    if width ∈ ws then (some (ws.length - 1 - ws.idxOf width), ws.take (ws.idxOf width + 1))
    else (none, ws)

/-- The answers to edits one after the other, and the state behind them. -/
def run {State : Type} (step : Edit → State → Option Nat × State) :
    List Edit → State → List (Option Nat) × State
  | [], s => ([], s)
  | edit :: edits, s =>
    let rest := run step edits (step edit s).2
    ((step edit s).1 :: rest.1, rest.2)

theorem run_append {State : Type} (step : Edit → State → Option Nat × State)
    (edits others : List Edit) (s : State) :
    run step (edits ++ others) s =
      ((run step edits s).1 ++ (run step others (run step edits s).2).1,
        (run step others (run step edits s).2).2) := by
  induction edits generalizing s with
  | nil => rfl
  | cons edit edits ih => simp only [List.cons_append, run, ih]

end Edit

theorem perform_closeTo_of_not_mem (hw : w ∉ i.levels) :
    (Edit.closeTo w).perform i = (none, i) := by
  rw [← isSome_closeTo?, Option.not_isSome_iff_eq_none] at hw
  rw [Edit.perform, hw]
  rfl

/-- What is closed are the levels above the width. -/
theorem perform_closeTo_of_mem (h : i.Ascending) (hw : w ∈ i.levels) :
    ∃ j, (Edit.closeTo w).perform i = (some (i.levels.countP (w < ·)), j) ∧
      i.levels = j.levels ++ i.levels.filter (w < ·) ∧ j.current = w := by
  obtain ⟨j, closed, hclose, hlevels, hclosed, rfl, hj⟩ := closeTo?_of_mem_levels h hw
  have hkept : ∀ v ∈ j.levels, ¬decide (j.current < v) = true := by
    intro v hv
    rw [levels_eq_concat, List.mem_append, List.mem_singleton] at hv
    rcases hv with hv | rfl
    · simpa using Nat.le_of_lt (hj.lt_current hv)
    · simp
  have hfilter : i.levels.filter (j.current < ·) = closed := by
    rw [hlevels, List.filter_append, List.filter_eq_nil_iff.2 hkept, List.nil_append]
    exact List.filter_eq_self.2 fun v hv => decide_eq_true (hclosed v hv)
  rw [Edit.perform, hclose, List.countP_eq_length_filter, hfilter]
  exact ⟨j, rfl, hlevels, rfl⟩

/-- An edit of ascending levels leaves them ascending, and edits the list of all widths in the
same way. -/
theorem perform_levels (h : i.Ascending) (edit : Edit) :
    (edit.perform i).2.Ascending ∧
      edit.onWidths i.levels = ((edit.perform i).1, (edit.perform i).2.levels) := by
  cases edit with
  | push w =>
    refine ⟨h.push w, ?_⟩
    rw [Edit.onWidths, Edit.perform, push, levels_eq_concat, List.getLastD_concat,
      ← levels_eq_concat]
    split
    · rw [levels_cons]
    · rfl
  | pop =>
    obtain ⟨opened⟩ := i
    cases opened with
    | nil => exact ⟨h, rfl⟩
    | cons w opened =>
      refine ⟨h.of_append (List.singleton_append ..).symm, ?_⟩
      have hlength : 1 < (levels ⟨opened⟩ ++ [w]).length := by simp [levels]
      rw [Edit.onWidths, levels_cons, if_pos hlength, List.getLast?_concat, List.dropLast_concat]
      rfl
  | closeTo w =>
    by_cases hw : w ∈ i.levels
    · obtain ⟨j, closed, hclose, hlevels, -, rfl, hj⟩ := closeTo?_of_mem_levels h hw
      rw [Edit.onWidths, if_pos hw, Edit.perform, hclose]
      refine ⟨hj, ?_⟩
      -- No width is open twice, so the first entry of a width is its level.
      have hplace : i.levels.idxOf j.current + 1 = j.levels.length := by
        have hnot : j.current ∉ j.levels.dropLast :=
          fun hmem => Nat.lt_irrefl _ (hj.lt_current hmem)
        rw [hlevels, levels_eq_concat j, List.append_assoc, List.idxOf_append, if_neg hnot]
        simp
      have hcount : i.levels.length - 1 - i.levels.idxOf j.current = closed.length := by
        have hlength := congrArg List.length hlevels
        rw [List.length_append] at hlength
        omega
      rw [hcount, hplace, hlevels, List.take_left]
      rfl
    · rw [Edit.onWidths, if_neg hw, perform_closeTo_of_not_mem hw]
      exact ⟨h, rfl⟩

theorem run_levels (h : i.Ascending) (edits : List Edit) :
    (Edit.run Edit.perform edits i).2.Ascending ∧
      Edit.run Edit.onWidths edits i.levels =
        ((Edit.run Edit.perform edits i).1, (Edit.run Edit.perform edits i).2.levels) := by
  induction edits generalizing i with
  | nil => exact ⟨h, rfl⟩
  | cons edit edits ih =>
    obtain ⟨hedit, hwidths⟩ := perform_levels h edit
    obtain ⟨hrest, hrun⟩ := ih hedit
    exact ⟨hrest, by simp only [Edit.run, hwidths, hrun]⟩

/-- Levels opened one above the other are closed in turn, the innermost one first. -/
theorem run_push_pop {ws : List Nat} (h : (i.current :: ws).Pairwise (· < ·)) :
    Edit.run Edit.perform (ws.map .push ++ List.replicate ws.length .pop) i =
      (List.replicate ws.length none ++ ws.reverse.map some, i) := by
  induction ws generalizing i with
  | nil => rfl
  | cons w ws ih =>
    -- The first `push` and the last `pop` enclose those of the wider levels.
    have hpush : i.push w = ⟨w :: i.opened⟩ := if_pos (List.rel_of_pairwise_cons h (.head _))
    have hrest := @ih (i.push w) (by rw [hpush]; exact h.tail)
    rw [List.length_cons, List.replicate_succ', List.map_cons, List.cons_append,
      ← List.append_assoc, Edit.run, Edit.perform, Edit.run_append, hrest]
    simp [Edit.run, Edit.perform, hpush, pop?, orSame, List.replicate_succ]

/-- Behind any edits, whatever their widths are, the open levels are what the same edits make of
the list of widths that holds the root alone, with the same answers. They ascend from the root,
which is never closed, up to the current one.

Closing levels down to a width answers if and only if it is open, with the number of levels above
it; it takes away those and leaves the width as the current one. Otherwise it leaves all levels as
they are. Levels that are opened one above the other are closed in reverse, which brings the
levels back that were open before. -/
theorem levels_under_edits (edits : List Edit) :
    let i := (Edit.run Edit.perform edits {}).2
    Edit.run Edit.onWidths edits [0] = ((Edit.run Edit.perform edits {}).1, i.levels) ∧
      i.levels.Pairwise (· < ·) ∧ i.levels.head? = some 0 ∧ i.levels.getLast? = some i.current ∧
      (∀ w,
        let result := (Edit.closeTo w).perform i
        (∀ k, result.1 = some k ↔ w ∈ i.levels ∧ k = i.levels.countP (w < ·)) ∧
          (w ∈ i.levels →
            i.levels = result.2.levels ++ i.levels.filter (w < ·) ∧ result.2.current = w) ∧
          (result.1 = none → result.2 = i)) ∧
      ∀ ws, (i.current :: ws).Pairwise (· < ·) →
        Edit.run Edit.perform (ws.map .push ++ List.replicate ws.length .pop) i =
          (List.replicate ws.length none ++ ws.reverse.map some, i) := by
  intro i
  obtain ⟨hascending, hwidths⟩ := run_levels ascending_empty edits
  refine ⟨hwidths, hascending, rfl, ?_, ?_, fun ws => run_push_pop⟩
  · rw [levels_eq_concat, List.getLast?_concat]
  · intro w
    by_cases hw : w ∈ i.levels
    · obtain ⟨j, hperform, hkept⟩ := perform_closeTo_of_mem hascending hw
      rw [hperform]
      refine ⟨fun k => ?_, fun _ => hkept, fun hnone => by cases hnone⟩
      rw [Option.some.injEq, eq_comm, and_iff_right hw]
    · rw [perform_closeTo_of_not_mem hw]
      simp [hw]

/-- A width between two levels is refused, and all levels above the root can be closed. -/
theorem levels_under_edits_between :
    let i := (Edit.run Edit.perform [.pop, .push 4, .push 2, .push 8] {}).2
    i.levels = [0, 4, 8] ∧ ((Edit.closeTo 2).perform i).2 = i ∧
      ((Edit.closeTo 0).perform i).1 = some 2 ∧ ((Edit.closeTo 0).perform i).2.current = 0 ∧
      Edit.run Edit.perform [.push 9, .push 11, .pop, .pop] i =
        ([none, none, some 11, some 9], i) := by
  obtain ⟨-, -, -, -, hclose, hopen⟩ := levels_under_edits [.pop, .push 4, .push 2, .push 8]
  exact ⟨by decide, (hclose 2).2.2 (by decide), ((hclose 0).1 2).2 (by decide),
    ((hclose 0).2.1 (by decide)).2, hopen [9, 11] (by decide)⟩

end Offside.Indentation
