import Mathlib.Data.List.Basic

/-!
# Slash-separated paths

A path names a node of a hierarchical store by its segments. `segments` reads
a text as Firestore and Storage do: split at every `/`, empty segments
skipped. A nonempty text without a slash is one segment (`segments_single`),
and a first directory is one segment, whatever comes after it
(`segments_dir`).
-/

namespace BlindBoard.Lib

abbrev Path := List String

/-- The segments of a path's text. -/
def segments (s : String) : Path :=
  ((s.toList.splitOn '/').filter fun l => l ≠ []).map String.ofList

theorem segments_single {s : String} (h : '/' ∉ s.toList) (hne : s ≠ "") : segments s = [s] := by
  have : s.toList ≠ [] := fun e => hne (String.toList_inj.mp e)
  simp [segments, List.splitOn_eq_singleton h, this]

/-- `"/dir/rest"`: the directory, then the rest's own segments. -/
theorem segments_dir {dir : String} (h : '/' ∉ dir.toList) (hne : dir ≠ "") (rest : String) :
    segments ("/" ++ dir ++ "/" ++ rest) = dir :: segments rest := by
  have hd : dir.toList ≠ [] := fun e => hne (String.toList_inj.mp e)
  have hl : ("/" ++ dir ++ "/" ++ rest).toList = [] ++ '/' :: (dir.toList ++ '/' :: rest.toList) := by
    simp [String.toList_append]
  rw [segments, hl, List.splitOn_append_cons_self_of_not_mem (by simp),
    List.splitOn_append_cons_self_of_not_mem h]
  simp [hd, segments]

example : segments "/A1/B2" = ["A1", "B2"] := by decide

end BlindBoard.Lib
