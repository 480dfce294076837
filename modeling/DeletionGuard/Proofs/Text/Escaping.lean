import DeletionGuard.Proofs.Run.Printing

/-!
What escaping keeps. An escaped text is shown character by character, unless it leaves a tag open
that the text behind it closes. Only a backslash right before a bracket that opens no tag is lost.
-/
namespace DeletionGuard.Markup
variable {c : Char} {s cs more front u : List Char} {m : Match} {parts : List Part}
  {opened : List (List Char)} {position : Nat}

def isBracket (c : Char) : Bool :=
  c = '[' || c = ']'

def brackets (cs : List Char) : List Char :=
  cs.filter isBracket

theorem brackets_append (s cs : List Char) : brackets (s ++ cs) = brackets s ++ brackets cs :=
  List.filter_append ..

theorem brackets_eq_nil_iff : brackets cs = [] ↔ '[' ∉ cs ∧ ']' ∉ cs := by
  simp only [brackets, List.filter_eq_nil_iff, isBracket, Bool.or_eq_true, decide_eq_true_eq]
  constructor
  · exact fun h => ⟨fun hc => h _ hc (.inl rfl), fun hc => h _ hc (.inr rfl)⟩
  · rintro ⟨hopen, hclose⟩ c hc (rfl | rfl)
    · exact hopen hc
    · exact hclose hc

theorem brackets_escapeTags (n : Nat) (cs : List Char) :
    brackets (escapeTags n cs) = brackets cs := by
  have hbackslashes (k : Nat) : brackets (List.replicate k '\\') = [] := by
    rw [brackets, List.filter_eq_nil_iff]
    intro c hc
    rw [List.eq_of_mem_replicate hc]
    decide
  have hcons (c : Char) (cs : List Char) : brackets (c :: cs) = brackets [c] ++ brackets cs :=
    brackets_append [c] cs
  fun_induction escapeTags n cs with
  | case1 => rfl
  | case2 n c cs ih => rw [hcons, ih, ← hcons]
  | case3 c cs m hm ih => rw [brackets_append, hbackslashes, hcons, ih, ← hcons]; rfl
  | case4 c cs hm ih => rw [hcons, ih, ← hcons]

def Closing (cs : List Char) : Prop :=
  (brackets cs).head? = some ']'

theorem not_closing_bracket (cs : List Char) : ¬Closing ('[' :: cs) :=
  fun h => absurd (Option.some.inj h) (by decide)

theorem untilClose_eq_none_iff : untilClose cs = none ↔ ¬Closing cs := by
  induction cs with
  | nil => exact iff_of_true rfl nofun
  | cons c cs ih =>
    rw [untilClose]
    split
    · rename_i hclose
      exact iff_of_false (Option.some_ne_none _) fun h => h (by rw [hclose]; rfl)
    · rename_i hclose
      split
      · rename_i hopen
        exact iff_of_true rfl (hopen ▸ not_closing_bracket cs)
      · rename_i hopen
        have hskip : brackets (c :: cs) = brackets cs :=
          List.filter_cons_of_neg (by simp [isBracket, hclose, hopen])
        rw [Option.map_eq_none_iff, ih, Closing, Closing, hskip]

theorem closing_append_iff : Closing (s ++ cs) ↔
    Closing s ∨ brackets s = [] ∧ Closing cs := by
  unfold Closing
  rw [brackets_append]
  cases brackets s <;> simp

theorem closing_escapeTags (n : Nat) (s cs : List Char) :
    Closing (escapeTags n s ++ cs) ↔ Closing (s ++ cs) := by
  unfold Closing
  rw [brackets_append, brackets_append, brackets_escapeTags]

def IsTag (inside : List Char) : Prop :=
  ∃ c rest, inside = c :: rest ∧ beginsTag c = true ∧ brackets rest = []

theorem isPlain_of_beginsTag (h : beginsTag c = true) : IsPlain c := by
  constructor <;> rintro rfl <;> exact absurd h (by decide)

theorem untilClose_eq_some (h : untilClose cs = some u) :
    brackets u = [] ∧ ∃ rest, cs = u ++ ']' :: rest := by
  induction cs generalizing u with
  | nil => exact absurd h nofun
  | cons c cs ih =>
    rw [untilClose] at h
    split at h
    · rename_i hclose
      obtain rfl := Option.some.inj h
      exact ⟨rfl, cs, by rw [hclose]; rfl⟩
    · rename_i hclose
      split at h
      · cases h
      · rename_i hopen
        obtain ⟨u, hu, rfl⟩ := Option.map_eq_some_iff.mp h
        obtain ⟨hbare, rest, rfl⟩ := ih hu
        refine ⟨?_, rest, rfl⟩
        rw [brackets, List.filter_cons_of_neg (by simp [isBracket, hclose, hopen])]
        exact hbare

namespace Match

def text (m : Match) : List Char :=
  List.replicate m.backslashes '\\' ++ m.tag

theorem length_text (m : Match) : m.text.length = m.length := by
  simp only [text, tag, length, List.length_append, List.length_replicate, List.length_cons,
    List.length_nil]
  omega

theorem text_ne_nil (m : Match) : m.text ≠ [] := by
  simp [text, tag]

def shown (m : Match) : List Part :=
  (if m.backslashes = 0 then [] else [.shown (List.replicate m.backslashes '\\')]) ++ [.shown m.tag]

def escaped (m : Match) : Match :=
  ⟨m.backslashes + 1 + m.backslashes, m.inside⟩

theorem text_escaped (m : Match) :
    m.escaped.text = List.replicate (m.backslashes + 1) '\\' ++ m.text := by
  simp only [text, tag, escaped, ← List.append_assoc, List.replicate_append_replicate]

theorem parts_escaped (m : Match) (position : Nat) : m.escaped.parts position = m.shown := by
  have hhalf : (m.backslashes + 1 + m.backslashes) / 2 = m.backslashes := by omega
  have hodd : (m.backslashes + 1 + m.backslashes) % 2 = 1 := by omega
  simp only [parts, escaped, hhalf, hodd, shown, if_true]
  rfl

end Match

theorem matchAt_text (hm : IsTag m.inside) (cs : List Char) : matchAt (m.text ++ cs) = some m := by
  obtain ⟨c, rest, hinside, hbegins, hbare⟩ := hm
  obtain ⟨hopen, hclose⟩ := brackets_eq_nil_iff.mp hbare
  have hback : ∀ d ∈ List.replicate m.backslashes '\\', decide (d = '\\') = true := fun d hd => by
    simpa using List.eq_of_mem_replicate hd
  have htag : m.tag ++ cs = '[' :: c :: (rest ++ ']' :: cs) := by simp [Match.tag, hinside]
  rw [matchAt, Match.text, List.append_assoc, List.dropWhile_append_of_pos hback,
    List.takeWhile_append_of_pos hback, htag, List.dropWhile_cons_of_neg (by decide),
    List.takeWhile_cons_of_neg (by decide), List.append_nil, List.length_replicate]
  simp only [tagInside, hbegins, if_true, untilClose_append hclose hopen, Option.map_some,
    ← hinside]

theorem matchAt_eq_some (h : matchAt s = some m) :
    IsTag m.inside ∧ ∃ rest, s = m.text ++ rest := by
  obtain ⟨inside, htag, rfl⟩ := Option.map_eq_some_iff.mp h
  unfold tagInside at htag
  split at htag
  · rename_i c cs hdrop
    split at htag
    · rename_i hbegins
      obtain ⟨u, hu, rfl⟩ := Option.map_eq_some_iff.mp htag
      obtain ⟨hbare, rest, rfl⟩ := untilClose_eq_some hu
      refine ⟨⟨c, u, rfl, hbegins, hbare⟩, rest, ?_⟩
      have htake : s.takeWhile (· = '\\') =
          List.replicate (s.takeWhile (· = '\\')).length '\\' :=
        List.eq_replicate_of_mem fun d hd => by
          simpa using List.all_eq_true.mp (List.all_takeWhile ..) d hd
      calc
        s = s.takeWhile (· = '\\') ++ s.dropWhile (· = '\\') :=
          (List.takeWhile_append_dropWhile ..).symm
        _ = _ := by rw [hdrop, Match.text, ← htake]; simp [Match.tag]
    · cases htag
  · cases htag

theorem matchAt_backslash (h : matchAt ('\\' :: cs) = none) :
    matchAt cs = none := by
  rw [matchAt, Option.map_eq_none_iff, List.dropWhile_cons_of_pos (by decide)] at h
  rw [matchAt, h, Option.map_none]

theorem matchAt_of_backslash (h : matchAt cs = none) : matchAt ('\\' :: cs) = none := by
  rw [matchAt, Option.map_eq_none_iff] at h
  rw [matchAt, List.dropWhile_cons_of_pos (by decide), h, Option.map_none]

theorem matchAt_bracket (cs : List Char) :
    matchAt ('[' :: cs) = (tagInside ('[' :: cs)).map fun inside => ⟨0, inside⟩ := by
  rw [matchAt, List.dropWhile_cons_of_neg (by decide), List.takeWhile_cons_of_neg (by decide)]
  rfl

theorem escapeTags_skip (skipped cs : List Char) :
    escapeTags skipped.length (skipped ++ cs) = skipped ++ escapeTags 0 cs := by
  induction skipped with
  | nil => rfl
  | cons c skipped ih => rw [List.cons_append, List.length_cons, escapeTags, ih, List.cons_append]

theorem escapeTags_text (hm : IsTag m.inside) (cs : List Char) :
    escapeTags 0 (m.text ++ cs) = m.escaped.text ++ escapeTags 0 cs := by
  obtain ⟨c, tail, htext⟩ := List.exists_cons_of_ne_nil m.text_ne_nil
  have hlength : m.length - 1 = tail.length := by
    rw [← m.length_text, htext]
    rfl
  have hmatch := matchAt_text hm cs
  rw [htext, List.cons_append] at hmatch ⊢
  rw [escapeTags, hmatch]
  simp only [hlength, escapeTags_skip, Match.text_escaped, htext, List.append_assoc,
    List.cons_append]

theorem partsFrom_text (hm : IsTag m.inside) (cs : List Char) :
    partsFrom 0 position (m.text ++ cs) =
      m.parts position ++ partsFrom 0 (position + m.length) cs := by
  obtain ⟨c, tail, htext⟩ := List.exists_cons_of_ne_nil m.text_ne_nil
  have hlength : m.length = tail.length + 1 := by
    rw [← m.length_text, htext]
    rfl
  have hmatch := matchAt_text hm cs
  rw [htext, List.cons_append] at hmatch ⊢
  rw [partsFrom, hmatch]
  simp only [hlength, Nat.add_sub_cancel, partsFrom_skip]
  rw [Nat.add_assoc position 1, Nat.add_comm 1]

/-- A text taken apart into its tags, which only are to be seen, and all other characters. -/
inductive Splits : List Char → List Part → Prop where
  | nil : Splits [] []
  | plain {c : Char} {cs : List Char} {parts : List Part} (hc : matchAt (c :: cs) = none)
      (h : Splits cs parts) : Splits (c :: cs) (.plain c :: parts)
  | tag {m : Match} {cs : List Char} {parts : List Part} (hm : IsTag m.inside)
      (h : Splits cs parts) : Splits (m.text ++ cs) (m.shown ++ parts)

theorem exists_splits (s : List Char) : ∃ parts, Splits s parts := by
  induction hn : s.length using Nat.strongRecOn generalizing s with
  | _ n ih =>
    cases s with
    | nil => exact ⟨_, .nil⟩
    | cons c cs =>
      cases hmatch : matchAt (c :: cs) with
      | none =>
        obtain ⟨parts, h⟩ := ih cs.length (by rw [← hn]; exact Nat.lt_succ_self _) cs rfl
        exact ⟨_, .plain hmatch h⟩
      | some m =>
        obtain ⟨hm, rest, hsplit⟩ := matchAt_eq_some hmatch
        have hlength : rest.length < n := by
          rw [← hn, hsplit, List.length_append, Match.length_text, Match.length]
          omega
        obtain ⟨parts, h⟩ := ih rest.length hlength rest rfl
        rw [hsplit]
        exact ⟨_, Splits.tag hm h⟩

def Unclosed (s : List Char) : Prop :=
  ∃ front c rest, s = front ++ '[' :: c :: rest ∧ beginsTag c = true ∧ brackets rest = []

/-- Nothing in the text that follows goes together with the end of a text. -/
structure Apart (s more : List Char) : Prop where
  begins : ∀ c, more.head? = some c → beginsTag c = false
  back : ['\\'] <:+ s → matchAt more = none ∧ more.head? ≠ some '['
  closed : Unclosed s → ¬Closing more

theorem Apart.of_append (h : Apart (front ++ s) more) : Apart s more where
  begins := h.begins
  back hs := h.back (hs.trans (List.suffix_append front s))
  closed := by
    rintro ⟨front', c, rest, rfl, hopen⟩
    exact h.closed ⟨front ++ front', c, rest, (List.append_assoc ..).symm, hopen⟩

theorem Apart.of_cons (h : Apart (c :: s) more) : Apart s more :=
  Apart.of_append (show Apart ([c] ++ s) more from h)

theorem exists_escapeTags_cons (c : Char) (cs : List Char) : ∃ tail,
    escapeTags 0 (c :: cs) = c :: tail ∨ escapeTags 0 (c :: cs) = '\\' :: tail := by
  rw [escapeTags]
  split
  · exact ⟨_, .inr rfl⟩
  · exact ⟨_, .inl rfl⟩

theorem escapeTags_cons (hc : matchAt (c :: cs) = none) :
    escapeTags 0 (c :: cs) = c :: escapeTags 0 cs := by
  rw [escapeTags, hc]

theorem matchAt_bracket_escapeTags (hc : matchAt ('[' :: cs) = none) (h : Apart ('[' :: cs) more) :
    matchAt ('[' :: (escapeTags 0 cs ++ more)) = none := by
  have hnone {d : Char} (tail : List Char) (hd : beginsTag d = false) :
      matchAt ('[' :: d :: tail) = none := by
    rw [matchAt_bracket, tagInside, hd]
    rfl
  cases cs with
  | nil =>
    cases more with
    | nil => rfl
    | cons d more => exact hnone more (h.begins d rfl)
  | cons d ds =>
    cases hd : beginsTag d with
    | false =>
      obtain ⟨tail, hcons | hcons⟩ := exists_escapeTags_cons d ds <;> rw [hcons]
      · exact hnone _ hd
      · exact hnone _ (by decide)
    | true =>
      have hclosing : ¬Closing ds := by
        rw [matchAt_bracket, Option.map_eq_none_iff, tagInside, hd, if_pos rfl,
          Option.map_eq_none_iff] at hc
        exact untilClose_eq_none_iff.mp hc
      have hopen : ¬Closing (escapeTags 0 ds ++ more) := by
        rw [closing_escapeTags, closing_append_iff]
        rintro (hclose | ⟨hbare, hmore⟩)
        · exact hclosing hclose
        · exact h.closed ⟨[], d, ds, rfl, hd, hbare⟩ hmore
      rw [escapeTags_cons (matchAt_of_isPlain (isPlain_of_beginsTag hd)), matchAt_bracket,
        List.cons_append, tagInside, hd, if_pos rfl, untilClose_eq_none_iff.mpr hopen]
      rfl

theorem matchAt_escapeTags_of_ne (hback : c ≠ '\\') (hc : matchAt (c :: cs) = none)
    (h : Apart (c :: cs) more) : matchAt (c :: (escapeTags 0 cs ++ more)) = none := by
  by_cases hopen : c = '['
  · subst hopen
    exact matchAt_bracket_escapeTags hc h
  · exact matchAt_of_isPlain ⟨hopen, hback⟩

theorem matchAt_escapeTags (hc : matchAt (c :: cs) = none) (h : Apart (c :: cs) more) :
    matchAt (c :: (escapeTags 0 cs ++ more)) = none := by
  induction cs generalizing c with
  | nil =>
    obtain rfl | hback := Decidable.em (c = '\\')
    · exact matchAt_of_backslash (h.back (List.suffix_refl _)).1
    · exact matchAt_escapeTags_of_ne hback hc h
  | cons d ds ih =>
    obtain rfl | hback := Decidable.em (c = '\\')
    · have hd := matchAt_backslash hc
      rw [escapeTags_cons hd]
      exact matchAt_of_backslash (ih hd h.of_cons)
    · exact matchAt_escapeTags_of_ne hback hc h

theorem partsFrom_escapeTags (hs : Splits s parts) (h : Apart s more) (position : Nat) :
    ∃ position', partsFrom 0 position (escapeTags 0 s ++ more) =
      parts ++ partsFrom 0 position' more := by
  induction hs generalizing position with
  | nil => exact ⟨position, rfl⟩
  | plain hc hs ih =>
    obtain ⟨position', hparts⟩ := ih h.of_cons (position + 1)
    refine ⟨position', ?_⟩
    rw [escapeTags_cons hc, List.cons_append, partsFrom, matchAt_escapeTags hc h]
    simp only [hparts, List.cons_append]
  | tag hm hs ih =>
    rename_i m cs parts
    obtain ⟨position', hparts⟩ := ih h.of_append (position + m.escaped.length)
    refine ⟨position', ?_⟩
    have hescaped : IsTag m.escaped.inside := hm
    rw [escapeTags_text hm, List.append_assoc, partsFrom_text hescaped, hparts,
      Match.parts_escaped, List.append_assoc]

def visible : List Part → List Char
  | [] => []
  | .plain '\\' :: .plain '[' :: rest => '[' :: visible rest
  | .plain c :: rest => c :: visible rest
  | .shown cs :: rest => cs ++ visible rest
  | .tag _ _ :: rest => visible rest

theorem renderParts_shown (m : Match) (more : List Part) :
    renderParts opened (m.shown ++ more) = (renderParts opened more).map (m.text ++ ·) := by
  unfold Match.shown Match.text
  split
  · rename_i hzero
    rw [List.nil_append, List.singleton_append, renderParts, hzero]
    rfl
  · rw [List.append_assoc, List.singleton_append, List.singleton_append, renderParts, renderParts,
      map_append_map]

theorem visible_shown (m : Match) (more : List Part) :
    visible (m.shown ++ more) = m.text ++ visible more := by
  unfold Match.shown Match.text
  split
  · rename_i hzero
    rw [List.nil_append, List.singleton_append, visible, hzero]
    rfl
  · rw [List.append_assoc, List.singleton_append, List.singleton_append, visible, visible,
      List.append_assoc]

def Covered (c : Char) (parts : List Part) : Prop :=
  c = '\\' ∧ parts.head? = some (.plain '[')

theorem renderParts_plain (h : ¬Covered c parts) :
    renderParts opened (.plain c :: parts) = (renderParts opened parts).map (c :: ·) := by
  rw [renderParts]
  rintro rest rfl rfl
  exact h ⟨rfl, rfl⟩

theorem renderParts_of_covered (h : Covered c parts) :
    renderParts opened (.plain c :: parts) = renderParts opened parts := by
  obtain ⟨rfl, hhead⟩ := h
  obtain ⟨rest, rfl⟩ := List.head?_eq_some_iff.mp hhead
  rw [renderParts, renderParts_plain (by simp [Covered])]

theorem visible_plain (h : ¬Covered c parts) :
    visible (.plain c :: parts) = c :: visible parts := by
  rw [visible]
  rintro rest rfl rfl
  exact h ⟨rfl, rfl⟩

theorem visible_of_covered (h : Covered c parts) :
    visible (.plain c :: parts) = visible parts := by
  obtain ⟨rfl, hhead⟩ := h
  obtain ⟨rest, rfl⟩ := List.head?_eq_some_iff.mp hhead
  rw [visible, visible_plain (by simp [Covered])]

theorem covered_append {more : List Part} (hs : Splits cs parts)
    (hback : ['\\'] <:+ c :: cs → more.head? ≠ some (.plain '[')) :
    Covered c (parts ++ more) ↔ Covered c parts := by
  cases hs with
  | nil =>
    refine ⟨?_, fun h => absurd h.2 nofun⟩
    rintro ⟨rfl, hhead⟩
    exact absurd hhead (hback (List.suffix_refl _))
  | plain hc hs => rfl
  | tag hm hs =>
    rename_i m cs parts
    unfold Covered Match.shown
    split <;> rfl

theorem renderParts_splits (hs : Splits s parts) {more : List Part}
    (hback : ['\\'] <:+ s → more.head? ≠ some (.plain '[')) :
    renderParts opened (parts ++ more) = (renderParts opened more).map (visible parts ++ ·) := by
  induction hs with
  | nil =>
    rw [List.nil_append, visible]
    cases renderParts opened more <;> rfl
  | plain hc hs ih =>
    rename_i c cs parts
    have hrest := ih fun hsuffix => hback (hsuffix.trans (List.suffix_cons c cs))
    by_cases hcovered : Covered c parts
    · rw [List.cons_append, renderParts_of_covered ((covered_append hs hback).mpr hcovered), hrest,
        visible_of_covered hcovered]
    · rw [List.cons_append, renderParts_plain fun h => hcovered ((covered_append hs hback).mp h),
        hrest, visible_plain hcovered]
      cases renderParts opened more <;> rfl
  | tag hm hs ih =>
    rename_i m cs parts
    rw [List.append_assoc, renderParts_shown,
      ih fun hsuffix => hback (hsuffix.trans (List.suffix_append m.text cs)), visible_shown,
      map_append_map]

/-- A bracket that opens no tag stands right behind a backslash. -/
def Hides (s : List Char) : Prop :=
  ∃ front back, s = front ++ '\\' :: '[' :: back ∧ matchAt ('[' :: back) = none

theorem hides_cons_iff : Hides (c :: cs) ↔
    (c = '\\' ∧ ∃ back, cs = '[' :: back ∧ matchAt cs = none) ∨ Hides cs := by
  constructor
  · rintro ⟨front, back, hsplit, hmatch⟩
    cases front with
    | nil =>
      obtain ⟨rfl, rfl⟩ := List.cons.inj hsplit
      exact .inl ⟨rfl, back, rfl, hmatch⟩
    | cons d front =>
      obtain ⟨rfl, rfl⟩ := List.cons.inj hsplit
      exact .inr ⟨front, back, rfl, hmatch⟩
  · rintro (⟨rfl, back, rfl, hmatch⟩ | ⟨front, back, rfl, hmatch⟩)
    · exact ⟨[], back, rfl, hmatch⟩
    · exact ⟨c :: front, back, rfl, hmatch⟩

theorem hides_of_bare (hopen : '[' ∉ front) (h : Hides (front ++ ']' :: cs)) : Hides cs := by
  induction front with
  | nil => exact (hides_cons_iff.mp h).resolve_left fun hback => absurd hback.1 (by decide)
  | cons d front ih =>
    rw [List.mem_cons, not_or] at hopen
    refine ih hopen.2 ((hides_cons_iff.mp h).resolve_left ?_)
    rintro ⟨-, back, hsplit, -⟩
    cases front with
    | nil => exact absurd (List.cons.inj hsplit).1 (by decide)
    | cons d' front => exact hopen.2 (by rw [(List.cons.inj hsplit).1]; exact List.mem_cons_self)

theorem hides_of_text (hm : IsTag m.inside) (h : Hides (m.text ++ cs)) : Hides cs := by
  obtain ⟨n, inside⟩ := m
  induction n with
  | zero =>
    obtain ⟨c, rest, hinside, hbegins, hbare⟩ := hm
    have hopen : '[' ∉ c :: rest := by
      rw [List.mem_cons, not_or]
      exact ⟨(isPlain_of_beginsTag hbegins).1.symm, (brackets_eq_nil_iff.mp hbare).1⟩
    have htext : Match.text ⟨0, inside⟩ ++ cs = '[' :: (c :: rest ++ ']' :: cs) := by
      simp [Match.text, Match.tag, show inside = c :: rest from hinside]
    rw [htext] at h
    exact hides_of_bare hopen ((hides_cons_iff.mp h).resolve_left fun hback =>
      absurd hback.1 (by decide))
  | succ n ih =>
    refine ih hm ((hides_cons_iff.mp h).resolve_left ?_)
    rintro ⟨-, back, -, hmatch⟩
    exact absurd ((matchAt_text (m := ⟨n, inside⟩) hm cs).symm.trans hmatch) nofun

theorem covered_iff (hs : Splits cs parts) :
    Covered c parts ↔ c = '\\' ∧ ∃ back, cs = '[' :: back ∧ matchAt cs = none := by
  refine and_congr_right fun _ => ?_
  cases hs with
  | nil => simp
  | plain hc hs => simp [hc]
  | tag hm hs =>
    refine iff_of_false ?_ ?_
    · unfold Match.shown
      split <;> exact nofun
    · rintro ⟨back, -, hmatch⟩
      exact absurd ((matchAt_text hm _).symm.trans hmatch) nofun

/-- A text is seen as it is just if it hides nothing. -/
theorem visible_append_iff (hs : Splits s parts) (cs : List Char) :
    visible parts ++ cs = s ↔ ¬Hides s ∧ cs = [] := by
  induction hs with
  | nil =>
    have hnone : ¬Hides [] := by
      rintro ⟨front, back, hsplit, -⟩
      exact absurd hsplit (by simp)
    simp [visible, hnone]
  | plain hc hs ih =>
    rename_i c tail parts
    rw [hides_cons_iff, ← covered_iff hs]
    by_cases hcovered : Covered c parts
    · refine iff_of_false (fun h => ?_) fun h => h.1 (.inl hcovered)
      obtain ⟨rfl, hhead⟩ := hcovered
      obtain ⟨rest, rfl⟩ := List.head?_eq_some_iff.mp hhead
      rw [visible_of_covered ⟨rfl, hhead⟩, visible_plain (by simp [Covered])] at h
      exact absurd (List.cons.inj h).1 (by decide)
    · rw [visible_plain hcovered, List.cons_append, List.cons.injEq, ih]
      simp [hcovered]
  | tag hm hs ih =>
    rename_i m tail parts
    have hiff : Hides (m.text ++ tail) ↔ Hides tail := by
      refine ⟨hides_of_text hm, ?_⟩
      rintro ⟨front, back, rfl, hmatch⟩
      exact ⟨m.text ++ front, back, (List.append_assoc ..).symm, hmatch⟩
    rw [visible_shown, List.append_assoc, List.append_cancel_left_eq, ih, hiff]

def EndsAlone (s : List Char) : Prop :=
  ['\\'] <:+ s ∧ ¬['\\', '\\'] <:+ s

theorem mem_escapeTags_iff (n : Nat) : '[' ∈ escapeTags n s ↔ '[' ∈ s := by
  have hmem (cs : List Char) : '[' ∈ brackets cs ↔ '[' ∈ cs := by simp [brackets, isBracket]
  rw [← hmem, brackets_escapeTags, hmem]

theorem escapeTags_of_not_mem (h : '[' ∉ s) : escapeTags 0 s = s := by
  induction s with
  | nil => rfl
  | cons c s ih =>
    have hmatch : matchAt (c :: s) = none := by
      cases hmatch : matchAt (c :: s) with
      | none => rfl
      | some m =>
        obtain ⟨-, rest, hsplit⟩ := matchAt_eq_some hmatch
        rw [hsplit] at h
        exact absurd (by simp [Match.text, Match.tag]) h
    rw [escapeTags_cons hmatch, ih fun hs => h (List.mem_cons_of_mem c hs)]

theorem suffix_append_bracket (hu : ∀ c ∈ u, c = '\\') :
    u <:+ s ++ ']' :: cs ↔ u <:+ cs := by
  have hbracket : ']' ∉ u := fun h => absurd (hu _ h) (by decide)
  have hcs : cs <:+ ']' :: cs := List.suffix_cons ']' cs
  refine ⟨fun h => ?_, fun h => h.trans (hcs.trans (List.suffix_append s _))⟩
  obtain h | h := List.suffix_or_suffix_of_suffix h (List.suffix_append s (']' :: cs))
  · obtain rfl | h := List.suffix_cons_iff.mp h
    · exact absurd List.mem_cons_self hbracket
    · exact h
  · exact absurd (h.subset List.mem_cons_self) hbracket

theorem suffix_escapeTags_iff (hu : ∀ c ∈ u, c = '\\') (hs : Splits s parts) :
    u <:+ escapeTags 0 s ↔ u <:+ s := by
  induction hs with
  | nil => rfl
  | plain hc hs ih =>
    rename_i c cs parts
    have hsame (hmem : '[' ∉ cs) : u = c :: escapeTags 0 cs ↔ u = c :: cs := by
      rw [escapeTags_of_not_mem hmem]
    have hnone {d : Char} {out : List Char} (h : u = d :: out) : '[' ∉ out := fun hmem =>
      absurd (hu '[' (h ▸ List.mem_cons_of_mem d hmem)) (by decide)
    rw [escapeTags_cons hc, List.suffix_cons_iff, List.suffix_cons_iff, ih]
    refine or_congr_left ⟨fun h => (hsame ?_).mp h, fun h => (hsame (hnone h)).mpr h⟩
    exact fun hmem => hnone h ((mem_escapeTags_iff 0).mpr hmem)
  | tag hm hs ih =>
    rename_i m cs parts
    have htext (m : Match) (cs : List Char) : m.text ++ cs =
        (List.replicate m.backslashes '\\' ++ '[' :: m.inside) ++ ']' :: cs := by
      simp [Match.text, Match.tag]
    rw [escapeTags_text hm, htext, htext, suffix_append_bracket hu, suffix_append_bracket hu, ih]

theorem escapeChars_eq (hs : Splits s parts) :
    EndsAlone s ∧ escapeChars s = escapeTags 0 s ++ ['\\'] ∨
      ¬EndsAlone s ∧ escapeChars s = escapeTags 0 s := by
  have hsuffix {u : List Char} (hu : ∀ c ∈ u, c = '\\') :
      u.isSuffixOf (escapeTags 0 s) = true ↔ u <:+ s := by
    rw [List.isSuffixOf_iff_suffix, suffix_escapeTags_iff hu hs]
  have hone := hsuffix (u := ['\\']) (by simp)
  have htwo := hsuffix (u := ['\\', '\\']) (by simp)
  unfold escapeChars EndsAlone
  dsimp only
  split
  · rename_i hends
    rw [Bool.and_eq_true, Bool.not_eq_true', ← Bool.not_eq_true, hone, htwo] at hends
    exact .inl ⟨hends, rfl⟩
  · rename_i hends
    rw [Bool.and_eq_true, Bool.not_eq_true', ← Bool.not_eq_true, hone, htwo] at hends
    exact .inr ⟨hends, rfl⟩

theorem head?_partsFrom {d : Char} (h : (partsFrom 0 position cs).head? = some (.plain d)) :
    cs.head? = some d := by
  cases cs with
  | nil => exact absurd h nofun
  | cons c cs =>
    rw [partsFrom] at h
    split at h
    · unfold Match.parts at h
      dsimp only at h
      repeat' split at h
      all_goals cases h
    · exact congrArg some (Part.plain.inj (Option.some.inj h))

theorem renderParts_escapeTags (hs : Splits s parts) (h : Apart s more)
    (opened : List (List Char)) (position : Nat) : ∃ position',
      renderParts opened (partsFrom 0 position (escapeTags 0 s ++ more)) =
        (renderParts opened (partsFrom 0 position' more)).map (visible parts ++ ·) := by
  obtain ⟨position', hparts⟩ := partsFrom_escapeTags hs h position
  refine ⟨position', ?_⟩
  rw [hparts, renderParts_splits hs]
  exact fun hsuffix hhead => (h.back hsuffix).2 (head?_partsFrom hhead)

theorem apart_nil (s : List Char) : Apart s [] :=
  ⟨nofun, fun _ => ⟨rfl, nofun⟩, fun _ => nofun⟩

theorem apart_cons (hbegins : beginsTag c = false) (hopen : c ≠ '[')
    (hnone : matchAt (c :: cs) = none) (h : Unclosed s → ¬Closing (c :: cs)) :
    Apart s (c :: cs) where
  begins _ hd := Option.some.inj hd ▸ hbegins
  back _ := ⟨hnone, fun hhead => hopen (Option.some.inj hhead)⟩
  closed := h

theorem visible_eq (hs : Splits s parts) (h : ¬Hides s) : visible parts = s := by
  have hvisible := (visible_append_iff hs []).mpr ⟨h, rfl⟩
  rwa [List.append_nil] at hvisible

end DeletionGuard.Markup
