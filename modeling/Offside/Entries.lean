/-!
# Ordered entries

Keys with their values, in the order in which the keys were first set. Entries are
looked up with `List.lookup`. Setting a key changes its value in place, and a new
key goes last (`map_fst_set`); no other key is affected (`lookup_set`).
-/

set_option autoImplicit false

namespace Offside.Entries

variable {α β : Type} [BEq α]

/-- `entries` with `key` set to `value`: in place when the key is there, at the
end otherwise. -/
def set (key : α) (value : β) : List (α × β) → List (α × β)
  | [] => [(key, value)]
  | (k, v) :: entries =>
    if k == key then (k, value) :: entries else (k, v) :: set key value entries

variable [LawfulBEq α]

/-- A key is there if something is looked up under it. -/
theorem mem_map_fst_iff {key : α} {entries : List (α × β)} :
    key ∈ entries.map Prod.fst ↔ (entries.lookup key).isSome = true := by
  rw [List.lookup_isSome_iff, List.mem_map]
  exact exists_congr fun entry => and_congr_right fun _ => by rw [beq_iff_eq, eq_comm]

/-- Setting a known key keeps the order of keys; a new key goes last. -/
theorem map_fst_set [DecidableEq α] (key : α) (value : β) (entries : List (α × β)) :
    (set key value entries).map Prod.fst =
      if key ∈ entries.map Prod.fst then entries.map Prod.fst
      else entries.map Prod.fst ++ [key] := by
  induction entries with
  | nil => simp [set]
  | cons entry entries ih =>
    obtain ⟨k, v⟩ := entry
    by_cases h : k = key
    · simp [set, h]
    · have hne : ¬ key = k := Ne.symm h
      simp only [set, beq_iff_eq, h, if_false, List.map_cons, ih, List.mem_cons, hne, false_or]
      split <;> simp

/-- A new key goes last, with its value. -/
theorem set_of_not_mem {key : α} {entries : List (α × β)} (h : key ∉ entries.map Prod.fst)
    (value : β) : set key value entries = entries ++ [(key, value)] := by
  induction entries with
  | nil => rfl
  | cons entry entries ih =>
    obtain ⟨k, v⟩ := entry
    rw [List.map_cons, List.mem_cons, not_or] at h
    rw [set, if_neg (by simpa using Ne.symm h.1), ih h.2, List.cons_append]

/-- Setting a key changes what is looked up under that key, and nothing else. -/
theorem lookup_set (key other : α) (value : β) (entries : List (α × β)) :
    (set key value entries).lookup other =
      if other == key then some value else entries.lookup other := by
  induction entries with
  | nil => by_cases h : other == key <;> simp [set, List.lookup_cons, h]
  | cons entry entries ih =>
    obtain ⟨k, v⟩ := entry
    by_cases hk : k = key
    · subst hk
      by_cases ho : other == k <;> simp [set, List.lookup_cons, ho]
    · by_cases ho : other == k
      · have hne : ¬ other = key := fun h => hk (eq_of_beq ho ▸ h)
        simp [set, List.lookup_cons, hk, ho, hne]
      · simp [set, List.lookup_cons, hk, ho, ih]

end Offside.Entries
