import Suil.Utils.Elements

/-! What `split` and `parts` find behind the end of a view. Both look for the delimiter up to the
next NUL, which need not stand in the view. -/
namespace Suil.Utils.Text

open CText

theorem strstr_length {s d : Str} {k : ℕ} (h : strstr s d = some k) : k + d.length ≤ s.length := by
  obtain ⟨hpre, hk, -⟩ := strstr_some h
  have hle := hpre.length_le
  rw [List.length_drop] at hle
  omega

/-- The pieces of `s` between the delimiters before its first NUL. -/
def pieces (d s : Str) : List Str :=
  if _hd : d = [] then []
  else
    match _h : strstr (cString s) d with
    | none => if s = [] then [] else [s]
    | some k => s.take k :: pieces d (s.drop (k + d.length))
termination_by s.length
decreasing_by
  have hpos := List.length_pos_iff.mpr _hd
  have hlen := strstr_length _h
  have hle := length_cString_le s
  rw [List.length_drop]
  omega

section Scan
variable {d s t rest out : Str} {k p : ℕ} {v : View}

end Scan

end Suil.Utils.Text
