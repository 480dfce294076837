import DeletionGuard.Text.Basic

/-!
Pieces of a text: no piece holds the separator, and pieces that do not hold it are found again. The
character at either end of a text.
-/
namespace DeletionGuard.Text

theorem cut_append_cons {sep : Char} {s : String} (h : sep ∉ s.toList) (rest : String) :
    cut sep (s ++ String.singleton sep ++ rest) = s :: cut sep rest := by
  simp [cut, List.splitOn_append_cons_self_of_not_mem h]

theorem cut_glue {sep : Char} {pieces : List String} (hne : pieces ≠ [])
    (h : ∀ s ∈ pieces, sep ∉ s.toList) : cut sep (glue sep pieces) = pieces := by
  have hsep : ∀ l ∈ pieces.map String.toList, sep ∉ l := by
    simpa using h
  simp [cut, glue, List.splitOn_intercalate sep hsep (by simpa using hne), Function.comp_def]

theorem mem_glue {sep c : Char} (hc : c ≠ sep) {pieces : List String} :
    c ∈ (glue sep pieces).toList ↔ ∃ s ∈ pieces, c ∈ s.toList := by
  induction pieces with
  | nil => simp [glue]
  | cons s rest ih =>
    simp only [glue, String.toList_ofList] at ih ⊢
    by_cases hrest : rest = []
    · simp [hrest]
    · have hne : rest.map String.toList ≠ [] := by simpa using hrest
      rw [List.map_cons, List.intercalate_cons_of_ne_nil hne]
      simp [ih, hc]

theorem glue_append_singleton {sep : Char} {pieces : List String} (hne : pieces ≠ [])
    (s : String) :
    glue sep (pieces ++ [s]) = glue sep pieces ++ String.singleton sep ++ s := by
  induction pieces with
  | nil => exact absurd rfl hne
  | cons t rest ih =>
    apply String.toList_injective
    by_cases hrest : rest = []
    · simp [hrest, glue, List.intercalate_cons_cons]
    · have hne : rest.map String.toList ≠ [] := by simpa using hrest
      have hne' : (rest ++ [s]).map String.toList ≠ [] := by simp
      have ih := congrArg String.toList (ih hrest)
      simp only [glue, String.toList_ofList, String.toList_append] at ih ⊢
      rw [List.cons_append, List.map_cons, List.map_cons, List.intercalate_cons_of_ne_nil hne,
        List.intercalate_cons_of_ne_nil hne', ih]
      simp only [List.append_assoc]

theorem toList_glue_cons (sep : Char) (s : String) (rest : List String) :
    ∃ tail, (glue sep (s :: rest)).toList = s.toList ++ tail := by
  cases rest with
  | nil => exact ⟨[], by simp [glue]⟩
  | cons r rest => exact ⟨_, by simp [glue, List.intercalate_cons_cons]; rfl⟩

theorem not_mem_of_mem_splitOn {sep : Char} {cs piece : List Char}
    (h : piece ∈ cs.splitOn sep) : sep ∉ piece := by
  induction cs generalizing piece with
  | nil =>
    rw [List.splitOn_nil, List.mem_singleton] at h
    simp [h]
  | cons c cs ih =>
    rw [List.splitOn_cons_eq_if_modifyHead] at h
    by_cases hc : c = sep
    · rw [if_pos (by simpa using hc), List.mem_cons] at h
      obtain rfl | h := h
      · simp
      · exact ih h
    · rw [if_neg (by simpa using hc)] at h
      cases hs : cs.splitOn sep with
      | nil => exact absurd hs (List.splitOn_ne_nil sep cs)
      | cons p ps =>
        rw [hs, List.modifyHead_cons, List.mem_cons] at h
        rw [hs] at ih
        obtain rfl | h := h
        · have hp := ih List.mem_cons_self
          simpa [List.mem_cons, not_or] using ⟨fun he => hc he.symm, hp⟩
        · exact ih (List.mem_cons_of_mem p h)

theorem not_mem_of_mem_cut {sep : Char} {s piece : String} (h : piece ∈ cut sep s) :
    sep ∉ piece.toList := by
  obtain ⟨cs, hcs, rfl⟩ := List.mem_map.mp h
  simpa using not_mem_of_mem_splitOn hcs

theorem cut_ne_nil (sep : Char) (s : String) : cut sep s ≠ [] := by
  simp [cut, List.splitOn_ne_nil]

theorem endsWith_slash_iff (s : String) : endsWith s "/" = true ↔ s.toList.getLast? = some '/' :=
  List.isSuffixOf_iff_suffix.trans List.singleton_suffix_iff_getLast?_eq_some

theorem startsWith_slash_iff (s : String) :
    startsWith s "/" = true ↔ s.toList.head? = some '/' :=
  List.isPrefixOf_iff_prefix.trans List.singleton_prefix_iff_head?_eq_some

end DeletionGuard.Text
