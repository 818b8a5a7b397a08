import Mathlib.Data.List.Forall2
import UpdateCheck.Base.CString

/-!
# Letter case

Strings that agree up to letter case are cut and copied alike: they end at the same place, and their
bytes are letters, digits or NULs at the same places.
-/

namespace UpdateCheck

namespace CChar

/-- The fold keeps letters letters and leaves every other byte alone. -/
theorem isalpha_lower (c : CChar) : isalpha c.lower.toInt = isalpha c.toInt := by
  rw [toInt_lower, Bool.eq_iff_iff]
  unfold isalpha tolower
  simp only [Bool.or_eq_true, Bool.and_eq_true, decide_eq_true_eq]
  split_ifs <;> omega

theorem isdigit_lower (c : CChar) : isdigit c.lower.toInt = isdigit c.toInt := by
  rw [toInt_lower, Bool.eq_iff_iff]
  unfold isalpha isdigit tolower
  simp only [Bool.or_eq_true, Bool.and_eq_true, decide_eq_true_eq]
  split_ifs <;> omega

variable {c d : CChar}

theorem isalpha_eq (h : c.lower = d.lower) : isalpha c.toInt = isalpha d.toInt := by
  rw [← isalpha_lower c, h, isalpha_lower]

theorem isdigit_eq (h : c.lower = d.lower) : isdigit c.toInt = isdigit d.toInt := by
  rw [← isdigit_lower c, h, isdigit_lower]

theorem eq_zero_iff (h : c.lower = d.lower) : c = 0 ↔ d = 0 := by
  rw [← lower_eq_zero, h, lower_eq_zero]

end CChar

theorem sameFold_iff {s t : List CChar} :
    SameFold s t ↔ List.Forall₂ (fun c d => c.lower = d.lower) s t := by
  rw [SameFold, ← List.forall₂_eq_eq_eq, List.forall₂_map_left_iff, List.forall₂_map_right_iff]

namespace SameFold

variable {s t : List CChar}

theorem length_eq (h : SameFold s t) : s.length = t.length := (sameFold_iff.mp h).length_eq

theorem content (h : SameFold s t) : SameFold (content s) (content t) := by
  rw [sameFold_iff] at h
  induction h with
  | nil => rfl
  | @cons c d s t hcd _ ih =>
    rw [content_cons, content_cons]
    by_cases hc : c = 0
    · rw [if_pos hc, if_pos ((CChar.eq_zero_iff hcd).mp hc)]
      rfl
    · rw [if_neg hc, if_neg (mt (CChar.eq_zero_iff hcd).mpr hc), SameFold, List.map_cons,
        List.map_cons, hcd, ih]

theorem take (h : SameFold s t) (n : Nat) : SameFold (s.take n) (t.take n) := by
  rw [SameFold, List.map_take, List.map_take, h]

theorem append {s' t' : List CChar} (h : SameFold s t) (h' : SameFold s' t') :
    SameFold (s ++ s') (t ++ t') := by
  rw [SameFold, List.map_append, List.map_append, h, h']

theorem strncpy (h : SameFold s t) (n : Nat) : SameFold (strncpy s n) (strncpy t n) := by
  have hcut := h.content.take n
  rw [strncpy_eq, strncpy_eq, h.content.length_eq]
  exact hcut.append (.refl _)

end SameFold

end UpdateCheck
