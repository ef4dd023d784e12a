import Mathlib.Data.List.Basic
import Mathlib.Data.List.Forall2

/-!
# General facts

Facts about results, lists and options that are about nothing in particular here.
-/

set_option autoImplicit false

namespace Offside

/-! ### Results -/

theorem map_eq_ok_iff {ε α β : Type} {x : Except ε α} {f : α → β} {b : β} :
    x.map f = .ok b ↔ ∃ a, x = .ok a ∧ f a = b := by
  cases x <;> simp [Except.map]

/-- A result that goes on succeeds if its first step does and what comes of it does. -/
theorem bind_eq_ok_iff {ε α β : Type} {x : Except ε α} {f : α → Except ε β} {b : β} :
    x >>= f = .ok b ↔ ∃ a, x = .ok a ∧ f a = .ok b := by
  cases x with
  | error e => simp [bind, Except.bind]
  | ok a => simp [bind, Except.bind]

/-- What succeeds behind a first step still does if the second step is changed for one
that succeeds more often. -/
theorem ok_bind_mono {ε α β : Type} {x : Except ε α} {f g : α → Except ε β}
    (hfg : ∀ a, (∃ b, f a = .ok b) → ∃ b, g a = .ok b) (h : ∃ b, x >>= f = .ok b) :
    ∃ b, x >>= g = .ok b := by
  cases x with
  | error e =>
    obtain ⟨b, hb⟩ := h
    cases hb
  | ok a => exact hfg a h

/-! ### Lists -/

/-- No part of a list that is cut at an element holds the element. -/
theorem not_mem_of_mem_splitOn {α : Type} [BEq α] [LawfulBEq α] {c : α} {cs l : List α}
    (hl : l ∈ cs.splitOn c) : c ∉ l := by
  induction cs generalizing l with
  | nil =>
    rw [List.splitOn_nil, List.mem_singleton] at hl
    rw [hl]
    exact List.not_mem_nil
  | cons d cs ih =>
    rw [List.splitOn_cons_eq_if_modifyHead] at hl
    split at hl
    · rcases List.mem_cons.1 hl with rfl | hl
      · exact List.not_mem_nil
      · exact ih hl
    · next hd =>
      obtain ⟨first, others, hsplit⟩ := List.exists_cons_of_ne_nil (List.splitOn_ne_nil c cs)
      rw [hsplit, List.modifyHead_cons] at hl
      rcases List.mem_cons.1 hl with rfl | hl
      · have hfirst := ih (hsplit ▸ List.mem_cons_self)
        have hne : c ≠ d := fun heq => hd (by simp [heq])
        simp [hne, hfirst]
      · exact ih (hsplit ▸ List.mem_cons_of_mem first hl)

/-! ### Lists side by side -/

section

variable {α β γ : Type} {R : α → β → Prop} {as : List α} {bs : List β}

/-- What follows for the second list from how each of its elements goes with one of the first. -/
theorem forall_mem_of_forall₂ {Q : β → Prop} (h : List.Forall₂ R as bs)
    (hQ : ∀ a b, R a b → Q b) : ∀ b ∈ bs, Q b := by
  induction h with
  | nil => exact nofun
  | cons hab _ ih => exact List.forall_mem_cons.2 ⟨hQ _ _ hab, ih⟩

/-- What holds between the elements of a list is carried over to a list beside it. -/
theorem pairwise_of_forall₂ {S : α → α → Prop} {T : β → β → Prop} (h : List.Forall₂ R as bs)
    (hS : as.Pairwise S) (hT : ∀ a a' b b', R a b → R a' b' → S a a' → T b b') : bs.Pairwise T := by
  induction h with
  | nil => exact .nil
  | cons hab hrest ih =>
    obtain ⟨hhead, htail⟩ := List.pairwise_cons.1 hS
    refine List.pairwise_cons.2 ⟨?_, ih htail⟩
    refine forall_mem_of_forall₂ ((List.forall₂_and_left _ _).2 ⟨hhead, hrest⟩) ?_
    rintro a' b' ⟨hS, hab'⟩
    exact hT _ _ _ _ hab hab' hS

theorem forall₂_comp {S : β → γ → Prop} {cs : List γ} (h : List.Forall₂ R as bs)
    (h' : List.Forall₂ S bs cs) : List.Forall₂ (fun a c => ∃ b, R a b ∧ S b c) as cs := by
  induction h generalizing cs with
  | nil =>
    cases h'
    exact .nil
  | cons hab _ ih =>
    cases h' with
    | cons hbc hrest => exact .cons ⟨_, hab, hbc⟩ (ih hrest)

end

/-! ### Runs -/

section

variable {α : Type} {p : α → Bool} {c : α} (hc : p c = false) (xs ys : List α)

include hc

/-- What is taken from the front ends at the first element of another kind. -/
theorem takeWhile_append_cons : (xs ++ c :: ys).takeWhile p = xs.takeWhile p := by
  induction xs with
  | nil => simp [hc]
  | cons x xs ih => cases hx : p x <;> simp [hx, ih]

/-- What is dropped from the front ends at the first element that stays. -/
theorem dropWhile_append_cons : (xs ++ c :: ys).dropWhile p = xs.dropWhile p ++ c :: ys := by
  induction xs with
  | nil => simp [hc]
  | cons x xs ih => cases hx : p x <;> simp [hx, ih]

end

/-! ### First occurrences -/

section

variable {α : Type} [DecidableEq α]

theorem eraseDups_of_nodup {ks : List α} (h : ks.Nodup) : ks.eraseDups = ks := by
  induction ks with
  | nil => rfl
  | cons k ks ih =>
    obtain ⟨hk, hks⟩ := List.nodup_cons.1 h
    have hfilter : ks.filter (fun k' => !k' == k) = ks := by
      refine List.filter_eq_self.2 fun k' hk' => ?_
      have hne : k' ≠ k := fun heq => hk (heq ▸ hk')
      simpa using hne
    rw [List.eraseDups_cons, hfilter, ih hks]

/-- An element that was there before is no first occurrence. -/
theorem eraseDups_append_cons_of_mem {k : α} {ks ls : List α} (h : k ∈ ks) :
    (ks ++ k :: ls).eraseDups = (ks ++ ls).eraseDups := by
  rw [List.eraseDups_append, List.eraseDups_append, List.removeAll, List.removeAll,
    List.filter_cons_of_neg (by simpa using h)]

/-- Leaving some elements out does not change which occurrences of the others come first. -/
theorem eraseDups_filter (p : α → Bool) (ks : List α) :
    (ks.filter p).eraseDups = ks.eraseDups.filter p := by
  -- What follows the first element is filtered before it is searched, so the length goes down.
  induction hn : ks.length using Nat.strongRecOn generalizing ks with
  | _ n ih =>
    cases ks with
    | nil => rfl
    | cons k ks =>
      have hlength : ks.length < n := by simp [← hn]
      have hfilter : (ks.filter (fun k' => !k' == k)).length < n :=
        Nat.lt_of_le_of_lt (List.length_filter_le _ _) hlength
      rw [List.eraseDups_cons]
      cases hk : p k with
      | true =>
        rw [List.filter_cons_of_pos hk, List.filter_cons_of_pos hk, List.eraseDups_cons,
          ← ih _ hfilter _ rfl, List.filter_filter, List.filter_filter]
        simp only [Bool.and_comm]
      | false =>
        have hne : ∀ k' ∈ ks, (p k' && !k' == k) = p k' := by
          intro k' _
          by_cases heq : k' = k
          · simp [heq, hk]
          · simp [heq]
        rw [List.filter_cons_of_neg (by simp [hk]), List.filter_cons_of_neg (by simp [hk]),
          ← ih _ hfilter _ rfl, List.filter_filter, List.filter_congr hne]

theorem nodup_eraseDups (ks : List α) : ks.eraseDups.Nodup := by
  induction hn : ks.length using Nat.strongRecOn generalizing ks with
  | _ n ih =>
    cases ks with
    | nil => exact .nil
    | cons k ks =>
      have hlength : (ks.filter (fun k' => !k' == k)).length < n := by
        rw [← hn, List.length_cons]
        exact Nat.lt_succ_of_le (List.length_filter_le _ _)
      rw [List.eraseDups_cons]
      refine List.nodup_cons.2 ⟨fun hmem => ?_, ih _ hlength _ rfl⟩
      simpa using List.mem_eraseDups.1 hmem

/-- Repetitions inside a part make no difference to first occurrences in the whole. -/
theorem eraseDups_append_eraseDups (ks ls : List α) :
    (ks ++ ls.eraseDups).eraseDups = (ks ++ ls).eraseDups := by
  rw [List.eraseDups_append, List.eraseDups_append, List.removeAll, List.removeAll,
    eraseDups_filter, eraseDups_filter, eraseDups_of_nodup (nodup_eraseDups ls)]

theorem eraseDups_eraseDups_append (ks ls : List α) :
    (ks.eraseDups ++ ls).eraseDups = (ks ++ ls).eraseDups := by
  have hmem : ls.removeAll ks.eraseDups = ls.removeAll ks := by
    refine List.filter_congr fun k _ => ?_
    by_cases hk : k ∈ ks <;> simp [hk]
  rw [List.eraseDups_append, List.eraseDups_append, hmem, eraseDups_of_nodup (nodup_eraseDups ks)]

end

/-- Texts put together of parts, each no longer than its counterpart, agree only if all parts
do. -/
theorem flatMap_eq_iff_of_length_le {α β : Type} {f g : α → List β}
    (hle : ∀ x, (f x).length ≤ (g x).length) (xs : List α) :
    xs.flatMap f = xs.flatMap g ↔ ∀ x ∈ xs, f x = g x := by
  have hlength : ∀ xs : List α, (xs.flatMap f).length ≤ (xs.flatMap g).length := by
    intro xs
    induction xs with
    | nil => exact Nat.le_refl _
    | cons x xs ih =>
      rw [List.flatMap_cons, List.flatMap_cons, List.length_append, List.length_append]
      exact Nat.add_le_add (hle x) ih
  induction xs with
  | nil => simp
  | cons x xs ih =>
    rw [List.flatMap_cons, List.flatMap_cons, List.forall_mem_cons]
    refine Iff.trans ?_ (and_congr_right fun _ => ih)
    constructor
    · intro heq
      -- Neither part can make up for what the other one is short of.
      have htotal := congrArg List.length heq
      rw [List.length_append, List.length_append] at htotal
      have hx := hle x
      have hxs := hlength xs
      exact List.append_inj heq (by omega)
    · rintro ⟨hx, hxs⟩
      rw [hx, hxs]

end Offside
