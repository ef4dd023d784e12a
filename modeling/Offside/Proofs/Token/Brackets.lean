import Mathlib.Algebra.BigOperators.Group.List.Basic
import Mathlib.Data.Nat.Find
import Mathlib.Tactic.Linarith
import Offside.Proofs.Token.Scan

/-!
# Indents and outdents as brackets

Indents outside of verbatim regions and outdents are read as brackets. `height ts k`
counts the brackets that are open in front of place `k`, and `Closes ts i j` says that
the outdent at place `j` closes the level that the indent at place `i` opens: the
height comes back at `j` to what it was at `i`, and not before.

* `existsUnique_closes_of_opens`: if the height ends at 0 and is never below, every
  opening bracket is closed by exactly one closing bracket.
* `existsUnique_closes_of_closes`: if the height is never below 0, every closing
  bracket closes exactly one opening bracket.
-/

set_option autoImplicit false

namespace Offside

/-- What a scan adds to the number of open brackets. -/
def Scan.rise (t : Scan) : Int :=
  if t.opens then 1 else if t.closes then -1 else 0

namespace Scan

@[simp] theorem rise_outdent (line : Nat) (verbatim : Bool) :
    rise ⟨⟨.outdent, line⟩, verbatim⟩ = -1 := rfl

@[simp] theorem rise_indent (line : Nat) : rise ⟨⟨.indent, line⟩, false⟩ = 1 := rfl

@[simp] theorem rise_verbatim_indent (line : Nat) : rise ⟨⟨.indent, line⟩, true⟩ = 0 := rfl

@[simp] theorem rise_newline (line : Nat) (verbatim : Bool) :
    rise ⟨⟨.newline, line⟩, verbatim⟩ = 0 := rfl

@[simp] theorem rise_eos (line : Nat) (verbatim : Bool) :
    rise ⟨⟨.eos, line⟩, verbatim⟩ = 0 := rfl

end Scan

namespace Brackets

/-- The number of scans that open a level. -/
def opened (ts : List Scan) : Nat :=
  ts.countP (·.opens)

/-- The number of scans that close a level. -/
def closed (ts : List Scan) : Nat :=
  ts.countP (·.closes)

/-- What some scans add to the number of open brackets. -/
def net (ts : List Scan) : Int :=
  (ts.map Scan.rise).sum

/-- The number of brackets that are open in front of a place. -/
def height (ts : List Scan) (k : Nat) : Int :=
  net (ts.take k)

/-- There is a scan at place `i` that opens a level. -/
def OpensAt (ts : List Scan) (i : Nat) : Prop :=
  ∃ t, ts[i]? = some t ∧ t.opens

/-- There is a scan at place `j` that closes a level. -/
def ClosesAt (ts : List Scan) (j : Nat) : Prop :=
  ∃ t, ts[j]? = some t ∧ t.closes

/-- The scan at place `j` closes the level that the scan at place `i` opens. -/
structure Closes (ts : List Scan) (i j : Nat) : Prop where
  opens : OpensAt ts i
  closes : ClosesAt ts j
  lt : i < j
  /-- Behind the closing bracket as many are open as in front of the opening one. -/
  back : height ts (j + 1) = height ts i
  /-- In between, more are open. -/
  above : ∀ k, i < k → k ≤ j → height ts i < height ts k

instance (ts : List Scan) (i : Nat) : Decidable (OpensAt ts i) :=
  inferInstanceAs (Decidable (∃ t ∈ ts[i]?, t.opens = true))

instance (ts : List Scan) (j : Nat) : Decidable (ClosesAt ts j) :=
  inferInstanceAs (Decidable (∃ t ∈ ts[j]?, t.closes = true))

instance (ts : List Scan) (i j : Nat) : Decidable (Closes ts i j) :=
  decidable_of_iff
    (OpensAt ts i ∧ ClosesAt ts j ∧ i < j ∧ height ts (j + 1) = height ts i ∧
      ∀ k < j + 1, i < k → height ts i < height ts k)
    ⟨fun ⟨hopens, hcloses, hlt, hback, habove⟩ =>
        ⟨hopens, hcloses, hlt, hback, fun k hik hkj => habove k (Nat.lt_succ_of_le hkj) hik⟩,
      fun h => ⟨h.opens, h.closes, h.lt, h.back, fun k hkj hik =>
        h.above k hik (Nat.le_of_lt_succ hkj)⟩⟩

/-! ### Counting -/

theorem not_closes_of_opens {t : Scan} (h : t.opens) : t.closes = false := by
  simp only [Scan.opens, Bool.and_eq_true, beq_iff_eq] at h
  simp [Scan.closes, h.1]

@[simp] theorem net_nil : net [] = 0 :=
  rfl

@[simp] theorem net_cons (t : Scan) (ts : List Scan) : net (t :: ts) = t.rise + net ts := by
  simp [net]

@[simp] theorem net_append (ts us : List Scan) : net (ts ++ us) = net ts + net us := by
  simp [net]

/-- The net of some scans is the difference of the two counts. -/
theorem net_eq (ts : List Scan) : net ts = opened ts - closed ts := by
  induction ts with
  | nil => rfl
  | cons t ts ih =>
    rw [net_cons, ih]
    unfold Scan.rise opened closed
    by_cases ho : t.opens
    · simp [ho, not_closes_of_opens ho]
      omega
    · by_cases hc : t.closes
      · simp [ho, hc]
        omega
      · simp [ho, hc]

variable {ts : List Scan} {k : Nat}

theorem height_succ {t : Scan} (h : ts[k]? = some t) :
    height ts (k + 1) = height ts k + t.rise := by
  rw [height, List.take_add_one, h, net_append]
  simp [height]

theorem height_of_length_le (h : ts.length ≤ k) : height ts k = net ts := by
  rw [height, List.take_of_length_le h]

theorem height_succ_of_opensAt (h : OpensAt ts k) : height ts (k + 1) = height ts k + 1 := by
  obtain ⟨t, hk, ho⟩ := h
  rw [height_succ hk]
  simp [Scan.rise, ho]

theorem height_succ_of_closesAt (h : ClosesAt ts k) : height ts (k + 1) = height ts k - 1 := by
  obtain ⟨t, hk, hc⟩ := h
  have ho : t.opens = false := by
    cases ho : t.opens with
    | false => rfl
    | true => rw [not_closes_of_opens ho] at hc; exact absurd hc (by decide)
  rw [height_succ hk]
  simp [Scan.rise, ho, hc, Int.sub_eq_add_neg]

/-- Where the height changes, it does so by a scan. -/
theorem exists_of_height_ne (h : height ts (k + 1) ≠ height ts k) :
    ∃ t, ts[k]? = some t ∧ height ts (k + 1) = height ts k + t.rise := by
  cases hk : ts[k]? with
  | none =>
    have hlen := List.getElem?_eq_none_iff.1 hk
    rw [height_of_length_le hlen, height_of_length_le (Nat.le_succ_of_le hlen)] at h
    exact absurd rfl h
  | some t => exact ⟨t, rfl, height_succ hk⟩

/-- Where the height falls, a level is closed, and the height falls by one. -/
theorem closesAt_of_height_lt (h : height ts (k + 1) < height ts k) : ClosesAt ts k := by
  obtain ⟨t, hk, hrise⟩ := exists_of_height_ne h.ne
  refine ⟨t, hk, ?_⟩
  unfold Scan.rise at hrise
  split at hrise
  · omega
  · split at hrise
    · assumption
    · omega

/-- Where the height rises, a level is opened, and the height rises by one. -/
theorem opensAt_of_lt_height (h : height ts k < height ts (k + 1)) : OpensAt ts k := by
  obtain ⟨t, hk, hrise⟩ := exists_of_height_ne h.ne'
  refine ⟨t, hk, ?_⟩
  unfold Scan.rise at hrise
  split at hrise
  · assumption
  · split at hrise <;> omega

/-! ### Matching -/

variable {i j : Nat}

/-- A level has at most one closing bracket: behind the first one the height is back. -/
theorem Closes.right_unique {j' : Nat} (h : Closes ts i j) (h' : Closes ts i j') : j = j' := by
  -- Behind the earlier of the two the height is back, so the later one is not the first.
  rcases Nat.lt_trichotomy j j' with hlt | rfl | hlt
  · have := h'.above (j + 1) (Nat.lt_succ_of_lt h.lt) hlt
    rw [h.back] at this
    exact absurd this (lt_irrefl _)
  · rfl
  · have := h.above (j' + 1) (Nat.lt_succ_of_lt h'.lt) hlt
    rw [h'.back] at this
    exact absurd this (lt_irrefl _)

/-- A closing bracket closes at most one level. -/
theorem Closes.left_unique {i' : Nat} (h : Closes ts i j) (h' : Closes ts i' j) : i = i' := by
  rcases Nat.lt_trichotomy i i' with hlt | rfl | hlt
  · have := h.above i' hlt (Nat.le_of_lt h'.lt)
    rw [← h.back, h'.back] at this
    exact absurd this (lt_irrefl _)
  · rfl
  · have := h'.above i hlt (Nat.le_of_lt h.lt)
    rw [← h'.back, h.back] at this
    exact absurd this (lt_irrefl _)

/-- The first place behind an opening bracket where the height is not above the one
in front of it lies directly behind its closing bracket. -/
theorem closes_of_first (hi : OpensAt ts i) (hij : i < j) (hback : height ts (j + 1) ≤ height ts i)
    (habove : ∀ k, i < k → k ≤ j → height ts i < height ts k) : Closes ts i j := by
  -- The height falls at `j`, and it falls by one only.
  have hj := habove j hij (Nat.le_refl j)
  have hc := closesAt_of_height_lt (lt_of_le_of_lt hback hj)
  have hstep := height_succ_of_closesAt hc
  exact ⟨hi, hc, hij, by omega, habove⟩

/-- If the height ends at 0 and is never below, every opening bracket is closed by
exactly one closing bracket. -/
theorem existsUnique_closes_of_opens (hend : net ts = 0)
    (hpos : ∀ k, 0 ≤ height ts k) (hi : OpensAt ts i) : ∃! j, Closes ts i j := by
  have hup := height_succ_of_opensAt hi
  -- The height is at most that of `i` at the end, so there is a first such place.
  have hlast : ∃ n, height ts (i + 1 + n) ≤ height ts i := by
    refine ⟨ts.length, ?_⟩
    rw [height_of_length_le (by omega), hend]
    exact hpos i
  obtain ⟨n, hn, hmin⟩ : ∃ n, height ts (i + 1 + n) ≤ height ts i ∧
      ∀ m, m < n → ¬ height ts (i + 1 + m) ≤ height ts i :=
    ⟨Nat.find hlast, Nat.find_spec hlast, fun m hm => Nat.find_min hlast hm⟩
  have hne : n ≠ 0 := by
    rintro rfl
    rw [Nat.add_zero, hup] at hn
    omega
  obtain ⟨m, rfl⟩ := Nat.exists_eq_succ_of_ne_zero hne
  have hcloses : Closes ts i (i + 1 + m) := by
    refine closes_of_first hi (by omega) hn ?_
    intro k hik hkj
    have := hmin (k - (i + 1)) (by omega)
    rw [show i + 1 + (k - (i + 1)) = k by omega] at this
    omega
  exact ⟨i + 1 + m, hcloses, fun j hj => hj.right_unique hcloses⟩

/-- If the height is never below 0, every closing bracket closes exactly one opening
bracket. -/
theorem existsUnique_closes_of_closes (hpos : ∀ k, 0 ≤ height ts k)
    (hj : ClosesAt ts j) : ∃! i, Closes ts i j := by
  have hdown := height_succ_of_closesAt hj
  -- Going back from `j`, the height falls to that behind `j` at the start at the latest.
  have hfirst : ∃ n, height ts (j - n) ≤ height ts (j + 1) := by
    refine ⟨j, ?_⟩
    rw [Nat.sub_self]
    exact hpos (j + 1)
  obtain ⟨n, hn, hmin⟩ : ∃ n, height ts (j - n) ≤ height ts (j + 1) ∧
      ∀ m, m < n → ¬ height ts (j - m) ≤ height ts (j + 1) :=
    ⟨Nat.find hfirst, Nat.find_spec hfirst, fun m hm => Nat.find_min hfirst hm⟩
  have hn0 : n ≠ 0 := by
    rintro rfl
    rw [Nat.sub_zero] at hn
    omega
  have hnj : n ≤ j := by
    by_contra hlt
    have := hmin j (by omega)
    rw [Nat.sub_self] at this
    exact this (hpos (j + 1))
  have habove : ∀ k, j - n < k → k ≤ j → height ts (j + 1) < height ts k := by
    intro k hk hkj
    have := hmin (j - k) (by omega)
    rw [show j - (j - k) = k by omega] at this
    omega
  have hopens : OpensAt ts (j - n) := by
    apply opensAt_of_lt_height
    have := habove (j - n + 1) (by omega) (by omega)
    omega
  have hback : height ts (j + 1) = height ts (j - n) := by
    have h₁ := habove (j - n + 1) (by omega) (by omega)
    have h₂ := height_succ_of_opensAt hopens
    omega
  -- The first such place is directly behind the bracket that `j` closes.
  have hcloses : Closes ts (j - n) j :=
    ⟨hopens, hj, by omega, hback, fun k hk hkj => hback ▸ habove k hk hkj⟩
  exact ⟨j - n, hcloses, fun i hi => hi.left_unique hcloses⟩

end Brackets

end Offside
