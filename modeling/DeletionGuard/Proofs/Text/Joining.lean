import DeletionGuard.Proofs.Text.Escaping
import DeletionGuard.Proofs.Text.Styles

/-!
Escaped texts one behind another. Each is shown as it is, unless one of them ends in a tag that is
not closed and the next one closes it. Then nothing of what lies between the two brackets is seen.
-/
namespace DeletionGuard
namespace Markup
variable {c : Char} {a b x y s cs sep more : List Char} {parts : List Part}
  {opened : List (List Char)} {text : String}

/-- Marked-up text shows a text, before what follows. -/
def ShowsBefore (opened : List (List Char)) (markup shown more : List Char) : Prop :=
  ∀ position, ∃ position', renderParts opened (partsFrom 0 position (markup ++ more)) =
    (renderParts opened (partsFrom 0 position' more)).map (shown ++ ·)

theorem Shows.before (h : Shows a x) (more : List Char) : ShowsBefore [] a x more :=
  fun position => h position more

theorem showsBefore_plain (h : ∀ c ∈ a, IsPlain c) (more : List Char) :
    ShowsBefore opened a a more := by
  intro position
  exact ⟨_, by rw [partsFrom_append h, renderParts_append h]⟩

theorem ShowsBefore.append (h : ShowsBefore opened a x (b ++ more))
    (h' : ShowsBefore opened b y more) : ShowsBefore opened (a ++ b) (x ++ y) more := by
  intro position
  obtain ⟨position₁, h₁⟩ := h position
  obtain ⟨position₂, h₂⟩ := h' position₁
  refine ⟨position₂, ?_⟩
  rw [List.append_assoc, h₁, h₂, map_append_map]

theorem escapeChars_of_not_mem (hs : '\\' ∉ s) : escapeChars s = escapeTags 0 s := by
  obtain ⟨parts, hparts⟩ := exists_splits s
  obtain ⟨⟨hends, -⟩, -⟩ | ⟨-, hchars⟩ := escapeChars_eq hparts
  · exact absurd (hends.subset List.mem_cons_self) hs
  · exact hchars

theorem not_hides_of_not_mem (hs : '\\' ∉ s) : ¬Hides s := by
  rintro ⟨front, back, rfl, -⟩
  exact hs (by simp)

theorem showsBefore_escape (hs : '\\' ∉ s) (h : Apart s more) :
    ShowsBefore opened (escapeChars s) s more := by
  intro position
  obtain ⟨parts, hparts⟩ := exists_splits s
  obtain ⟨position', hrender⟩ := renderParts_escapeTags hparts h opened position
  rw [visible_eq hparts (not_hides_of_not_mem hs)] at hrender
  exact ⟨position', by rw [escapeChars_of_not_mem hs, hrender]⟩

theorem matchAt_append_bracket (hback : c ≠ '\\') (hc : matchAt (c :: cs) = none)
    (more : List Char) : matchAt (c :: (cs ++ '[' :: more)) = none := by
  by_cases hopen : c = '['
  · subst hopen
    rw [matchAt_bracket, Option.map_eq_none_iff] at hc ⊢
    cases cs with
    | nil => rfl
    | cons d ds =>
      rw [tagInside] at hc
      rw [List.cons_append, tagInside]
      split
      · rename_i hbegins
        rw [if_pos hbegins, Option.map_eq_none_iff, untilClose_eq_none_iff] at hc
        rw [Option.map_eq_none_iff, untilClose_eq_none_iff, closing_append_iff]
        rintro (hclose | ⟨-, hclose⟩)
        · exact hc hclose
        · exact not_closing_bracket more hclose
      · rfl
  · exact matchAt_of_isPlain ⟨hopen, hback⟩

theorem escapeTags_append_bracket (hs : '\\' ∉ s) (hmore : matchAt ('[' :: more) = none) :
    escapeTags 0 (s ++ '[' :: more) = escapeTags 0 s ++ '[' :: escapeTags 0 more := by
  obtain ⟨parts, hparts⟩ := exists_splits s
  induction hparts with
  | nil => exact escapeTags_cons hmore
  | plain hc _ ih =>
    rw [List.mem_cons, not_or] at hs
    rw [List.cons_append, escapeTags_cons (matchAt_append_bracket (Ne.symm hs.1) hc more), ih hs.2,
      escapeTags_cons hc, List.cons_append]
  | tag hm _ ih =>
    rw [List.append_assoc, escapeTags_text hm, escapeTags_text hm,
      ih fun hmem => hs (List.mem_append_right _ hmem), List.append_assoc]

theorem isPlain_of_brackets (hs : '\\' ∉ s) (h : brackets s = []) : ∀ c ∈ s, IsPlain c := by
  rintro c hc
  refine ⟨?_, ?_⟩ <;> rintro rfl
  · exact (brackets_eq_nil_iff.mp h).1 hc
  · exact hs hc

theorem escapeChars_of_unclosed (hs : '\\' ∉ s) (h : Unclosed s) : ∃ front c rest,
    s = front ++ '[' :: c :: rest ∧ escapeChars s = escapeTags 0 front ++ '[' :: c :: rest ∧
      beginsTag c = true ∧ brackets rest = [] := by
  obtain ⟨front, c, rest, rfl, hbegins, hbare⟩ := h
  have hrest : '\\' ∉ c :: rest := fun hmem => hs (by simp [hmem])
  have hnone : matchAt ('[' :: c :: rest) = none := by
    have hclosing : ¬Closing rest := by simp [Closing, hbare]
    rw [matchAt_bracket, tagInside, if_pos hbegins, untilClose_eq_none_iff.mpr hclosing]
    rfl
  have hplain : ∀ d ∈ c :: rest, IsPlain d :=
    List.forall_mem_cons.mpr ⟨isPlain_of_beginsTag hbegins, isPlain_of_brackets
      (fun hmem => hrest (List.mem_cons_of_mem c hmem)) hbare⟩
  have hkept : escapeTags 0 (c :: rest ++ []) = c :: rest ++ [] := escapeTags_append hplain
  rw [List.append_nil] at hkept
  refine ⟨front, c, rest, rfl, ?_, hbegins, hbare⟩
  rw [escapeChars_of_not_mem hs,
    escapeTags_append_bracket (fun hmem => hs (List.mem_append_left _ hmem)) hnone, hkept]

theorem escapeChars_of_closing (hs : '\\' ∉ s) (h : Closing s) : ∃ front back,
    s = front ++ ']' :: back ∧ escapeChars s = front ++ ']' :: escapeTags 0 back ∧
      brackets front = [] := by
  obtain ⟨front, hfront⟩ := Option.ne_none_iff_exists'.mp fun hnone =>
    untilClose_eq_none_iff.mp hnone h
  obtain ⟨hbare, back, rfl⟩ := untilClose_eq_some hfront
  have hplain : ∀ c ∈ front ++ [']'], IsPlain c := by
    intro c hc
    obtain hc | hc := List.mem_append.mp hc
    · exact isPlain_of_brackets (fun hmem => hs (List.mem_append_left _ hmem)) hbare c hc
    · rw [List.mem_singleton.mp hc]
      decide
  have hescape : escapeTags 0 (front ++ [']'] ++ back) = front ++ [']'] ++ escapeTags 0 back :=
    escapeTags_append hplain
  rw [List.append_assoc, List.append_assoc, List.singleton_append, List.singleton_append] at hescape
  exact ⟨front, back, rfl, by rw [escapeChars_of_not_mem hs, hescape], hbare⟩

/-- What is left open by a text and closed by the next one is not shown. -/
theorem renderParts_tangled (hs : '\\' ∉ s) (hcs : '\\' ∉ cs) (hopen : Unclosed s)
    (hclose : Closing cs) (hsep : brackets sep = []) (h : Apart cs more)
    (opened : List (List Char)) (position : Nat) :
    (∃ f, renderParts opened (partsFrom 0 position
      (escapeChars s ++ (sep ++ (escapeChars cs ++ more)))) = .error f) ∨
    ∃ opened' position' shown, shown.count ':' ≤ s.count ':' + cs.count ':' ∧
      (∀ c ∈ shown, c ∈ s ∨ c ∈ cs) ∧
      renderParts opened (partsFrom 0 position
        (escapeChars s ++ (sep ++ (escapeChars cs ++ more)))) =
          (renderParts opened' (partsFrom 0 position' more)).map (shown ++ ·) := by
  obtain ⟨front, c, rest, rfl, hescape, hbegins, hrest⟩ := escapeChars_of_unclosed hs hopen
  obtain ⟨left, back, rfl, hescape', hleft⟩ := escapeChars_of_closing hcs hclose
  have hfront : '\\' ∉ front := fun hmem => hs (List.mem_append_left _ hmem)
  have hback : '\\' ∉ back := fun hmem => hcs (by simp [hmem])
  have hbare : brackets (rest ++ (sep ++ left)) = [] := by
    simp [brackets_append, hrest, hsep, hleft]
  obtain ⟨hnone, hnone'⟩ := brackets_eq_nil_iff.mp hbare
  have hjoined : escapeChars (front ++ '[' :: c :: rest) ++
      (sep ++ (escapeChars (left ++ ']' :: back) ++ more)) = escapeTags 0 front ++
        '[' :: (c :: (rest ++ (sep ++ left)) ++ ']' :: (escapeTags 0 back ++ more)) := by
    rw [hescape, hescape']
    simp
  obtain ⟨parts, hparts⟩ := exists_splits front
  obtain ⟨parts', hparts'⟩ := exists_splits back
  have hapart : Apart front
      ('[' :: (c :: (rest ++ (sep ++ left)) ++ ']' :: (escapeTags 0 back ++ more))) := by
    refine ⟨fun d hd => ?_, fun hends => ?_, fun _ => not_closing_bracket _⟩
    · rw [← Option.some.inj hd]
      decide
    · exact absurd (hends.subset List.mem_cons_self) hfront
  obtain ⟨position₁, hrender⟩ := renderParts_escapeTags hparts hapart opened position
  rw [visible_eq hparts (not_hides_of_not_mem hfront),
    partsFrom_tag _ _ hbegins hnone' hnone, renderParts] at hrender
  rw [hjoined, hrender]
  cases stack opened (c :: (rest ++ (sep ++ left))) position₁ with
  | error f => exact .inl ⟨f, rfl⟩
  | ok opened' =>
    have hapart' : Apart back more := by
      rw [List.append_cons] at h
      exact h.of_append
    obtain ⟨position₂, hrender'⟩ := renderParts_escapeTags hparts' hapart' opened'
      (position₁ + (rest ++ (sep ++ left)).length + 3)
    rw [visible_eq hparts' (not_hides_of_not_mem hback)] at hrender'
    refine .inr ⟨opened', position₂, front ++ back, ?_, fun d hd => ?_, ?_⟩
    · rw [List.count_append, List.count_append, List.count_append]
      have hback := (List.sublist_cons_self ']' back).count_le ':'
      omega
    · obtain hd | hd := List.mem_append.mp hd <;> simp [hd]
    · dsimp only
      rw [hrender', map_append_map]

theorem line_eq_ok {screen : Screen} {markup : String}
    (hrender : renderParts [] (partsFrom 0 0 markup.toList) = .ok text.toList) (h : Literal text)
    (hleaves : screen.emoji.Leaves markup) :
    Console.line screen markup = .ok (.line (text ++ "\n")) := by
  have htab : '\t' ∉ text.toList := fun hmem => (h _ hmem).2.2 rfl
  rw [Console.line, render_of_leaves hrender hleaves, h.filter, String.ofList_toList, Except.map,
    Text.expandTabs_of_not_mem htab]

theorem count_of_line {screen : Screen} {markup : String}
    (hrender : renderParts [] (partsFrom 0 0 markup.toList) = .ok cs)
    (h : Literal (String.ofList cs)) (hline : Console.line screen markup = .ok (.line text)) :
    text.toList.count ':' ≤ cs.count ':' ∧
      (¬screen.emoji.Leaves markup → text.toList.count ':' < cs.count ':') := by
  have hbreak (s : String) : (s ++ "\n").toList.count ':' = s.toList.count ':' := by
    rw [String.toList_append, List.count_append]
    rfl
  by_cases hleaves : screen.emoji.Leaves markup
  · have hshown := line_eq_ok (hrender.trans (by rw [String.toList_ofList])) h hleaves
    obtain rfl := Console.Item.line.inj (Except.ok.inj (hshown.symm.trans hline))
    rw [hbreak, String.toList_ofList]
    exact ⟨Nat.le_refl _, fun hcode => absurd hleaves hcode⟩
  · obtain ⟨shown, hshown, hcount, htab⟩ := render_of_not_leaves hrender hleaves
    have hnone : '\t' ∉ cs := fun hmem => (h _ (by rwa [String.toList_ofList])).2.2 rfl
    rw [Console.line, hshown, Except.map, Text.expandTabs_of_not_mem (htab hnone)] at hline
    obtain rfl := Console.Item.line.inj (Except.ok.inj hline)
    rw [hbreak]
    exact ⟨Nat.le_of_lt hcount, fun _ => hcount⟩

end Markup
end DeletionGuard
