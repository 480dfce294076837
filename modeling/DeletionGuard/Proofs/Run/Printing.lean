import DeletionGuard.CommandLine.Transcript
import DeletionGuard.Proofs.Path.Place
import DeletionGuard.Proofs.Text.Runs

/-!
What printing leaves: no world changes by it, and the lines of a transcript are those that were
printed. Characters with no meaning of their own are shown as they are, so a line in a style begins
with those that its text begins with.
-/
namespace DeletionGuard
open Console (Item)

variable {sep c : Char} {start style cs out : List Char} {s text : String}

namespace Transcript

@[simp] theorem start_world (w : World) : (Transcript.start w).world = w := rfl

@[simp] theorem crash_world (t : Transcript) (f : Failure) : (t.crash f).world = t.world := rfl

@[simp] theorem complain_world (t : Transcript) (message : String) :
    (t.complain message).world = t.world := by
  unfold complain
  split <;> rfl

@[simp] theorem print_world (t : Transcript) (items : List (Except Failure Console.Item)) :
    (t.print items).world = t.world := by
  induction items generalizing t with
  | nil => rfl
  | cons item items ih =>
    cases item with
    | ok item => exact ih _
    | error f => rfl

@[simp] theorem complain_out (t : Transcript) (message : String) :
    (t.complain message).out = t.out := by
  unfold complain
  split <;> rfl

theorem mem_out_of_print {t : Transcript} {items : List (Except Failure Console.Item)}
    {item : Console.Item} (h : item ∈ (t.print items).out) : item ∈ t.out ∨ .ok item ∈ items := by
  induction items generalizing t with
  | nil => exact .inl h
  | cons next items ih =>
    cases next with
    | error f => exact .inl h
    | ok next =>
      obtain h | h := ih h
      · obtain h | h := List.mem_append.mp h
        · exact .inl h
        · exact .inr (List.mem_singleton.mp h ▸ List.mem_cons_self)
      · exact .inr (List.mem_cons_of_mem _ h)

end Transcript

namespace Text

theorem splitOn_append_of_not_mem (cs : List Char) (h : sep ∉ start) :
    ∃ piece rest, (start ++ cs).splitOn sep = (start ++ piece) :: rest := by
  induction start with
  | nil => exact List.exists_cons_of_ne_nil (List.splitOn_ne_nil sep cs)
  | cons c start ih =>
    obtain ⟨piece, rest, hsplit⟩ := ih fun hstart => h (List.mem_cons_of_mem c hstart)
    have hc : (c == sep) = false := by
      rw [beq_eq_false_iff_ne]
      rintro rfl
      exact h List.mem_cons_self
    refine ⟨piece, rest, ?_⟩
    rw [List.cons_append, List.splitOn_cons_eq_if_modifyHead, hc, hsplit]
    rfl

theorem expandLine_append (h : '\t' ∉ start) (hs : s.toList = start ++ cs) :
    ∃ tail, (expandLine s).toList = start ++ tail := by
  obtain ⟨piece, rest, hsplit⟩ := splitOn_append_of_not_mem cs h
  rw [expandLine, hs, hsplit]
  cases rest with
  | nil => exact ⟨piece, String.toList_ofList⟩
  | cons next rest =>
    exact ⟨_, by simp only [layTabs, String.toList_ofList, List.append_assoc]; rfl⟩

theorem expandTabs_append {s : String} (htab : '\t' ∉ start) (hbreak : '\n' ∉ start)
    (hs : s.toList = start ++ cs) : ∃ tail, (expandTabs s).toList = start ++ tail := by
  obtain ⟨piece, rest, hsplit⟩ := splitOn_append_of_not_mem cs hbreak
  obtain ⟨tail, htail⟩ :=
    expandLine_append (s := String.ofList (start ++ piece)) htab String.toList_ofList
  rw [expandTabs, cut, hs, hsplit, List.map_cons, List.map_cons]
  obtain ⟨tail', htail'⟩ := toList_glue_cons '\n' (expandLine (String.ofList (start ++ piece)))
    ((rest.map String.ofList).map expandLine)
  exact ⟨tail ++ tail', by rw [htail', htail, List.append_assoc]⟩

end Text

namespace Markup

def IsShown (c : Char) : Prop :=
  c ≠ '[' ∧ c ≠ '\\' ∧ isDropped c = false ∧ c ≠ '\t' ∧ c ≠ '\n' ∧ c ≠ ':'

instance (c : Char) : Decidable (IsShown c) :=
  inferInstanceAs (Decidable (_ ∧ _ ∧ _ ∧ _ ∧ _ ∧ _))

def IsPlain (c : Char) : Prop :=
  c ≠ '[' ∧ c ≠ '\\'

instance (c : Char) : Decidable (IsPlain c) :=
  inferInstanceAs (Decidable (_ ∧ _))

theorem IsShown.isPlain (h : IsShown c) : IsPlain c :=
  ⟨h.1, h.2.1⟩

def IsStyle (style : List Char) : Prop :=
  ∃ c rest, style = c :: rest ∧ beginsTag c = true ∧ c ≠ '/' ∧ ']' ∉ rest ∧ '[' ∉ rest

theorem matchAt_of_isPlain (h : IsPlain c) : matchAt (c :: cs) = none := by
  obtain ⟨hopen, hback⟩ := h
  rw [matchAt, List.dropWhile_cons_of_neg (by simpa using hback)]
  unfold tagInside
  split
  · rename_i heq
    exact absurd (List.cons.inj heq).1 hopen
  · rfl

theorem escapeTags_append (h : ∀ c ∈ start, IsPlain c) :
    escapeTags 0 (start ++ cs) = start ++ escapeTags 0 cs := by
  induction start with
  | nil => rfl
  | cons c start ih =>
    obtain ⟨hc, hstart⟩ := List.forall_mem_cons.mp h
    rw [List.cons_append, escapeTags, matchAt_of_isPlain hc, ih hstart]
    rfl

theorem escapeChars_append (cs : List Char) (h : ∀ c ∈ start, IsShown c) :
    ∃ tail, escapeChars (start ++ cs) = start ++ tail := by
  unfold escapeChars
  simp only [escapeTags_append fun c hc => (h c hc).isPlain]
  split
  · exact ⟨_, List.append_assoc _ _ _⟩
  · exact ⟨_, rfl⟩

theorem partsFrom_append {position : Nat} (h : ∀ c ∈ start, IsPlain c) :
    partsFrom 0 position (start ++ cs) =
      start.map .plain ++ partsFrom 0 (position + start.length) cs := by
  induction start generalizing position with
  | nil => rfl
  | cons c start ih =>
    obtain ⟨hc, hstart⟩ := List.forall_mem_cons.mp h
    rw [List.cons_append, partsFrom, matchAt_of_isPlain hc]
    simp only [ih hstart, List.map_cons, List.cons_append, List.length_cons]
    rw [Nat.add_assoc, Nat.add_comm 1]

theorem renderParts_append {opened : List (List Char)} {parts : List Part}
    (h : ∀ c ∈ start, IsPlain c) : renderParts opened (start.map .plain ++ parts) =
      (renderParts opened parts).map (start ++ ·) := by
  induction start with
  | nil =>
    rw [List.map_nil, List.nil_append]
    cases renderParts opened parts <;> rfl
  | cons c start ih =>
    obtain ⟨hc, hstart⟩ := List.forall_mem_cons.mp h
    rw [List.map_cons, List.cons_append, renderParts, ih hstart]
    · cases renderParts opened parts <;> rfl
    · exact fun _ _ hback => hc.2 hback

theorem untilClose_append (hclose : ']' ∉ style) (hopen : '[' ∉ style) :
    untilClose (style ++ ']' :: cs) = some style := by
  induction style with
  | nil => rfl
  | cons d style ih =>
    rw [List.mem_cons, not_or] at hclose hopen
    rw [List.cons_append, untilClose, if_neg (Ne.symm hclose.1), if_neg (Ne.symm hopen.1),
      ih hclose.2 hopen.2]
    rfl

theorem partsFrom_skip {position : Nat} (skipped : List Char) :
    partsFrom skipped.length position (skipped ++ cs) =
      partsFrom 0 (position + skipped.length) cs := by
  induction skipped generalizing position with
  | nil => rfl
  | cons c skipped ih =>
    rw [List.cons_append, List.length_cons, partsFrom, ih, Nat.add_assoc, Nat.add_comm 1]

theorem partsFrom_tag {rest : List Char} (position : Nat) (cs : List Char)
    (hbegins : beginsTag c = true) (hclose : ']' ∉ rest) (hopen : '[' ∉ rest) :
    partsFrom 0 position ('[' :: (c :: rest ++ ']' :: cs)) =
      .tag (c :: rest) position :: partsFrom 0 (position + rest.length + 3) cs := by
  have hmatch : matchAt ('[' :: (c :: rest ++ ']' :: cs)) = some ⟨0, c :: rest⟩ := by
    rw [matchAt, List.dropWhile_cons_of_neg (by decide), List.takeWhile_cons_of_neg (by decide)]
    simp only [tagInside, List.cons_append, hbegins, if_true, untilClose_append hclose hopen]
    rfl
  have hlength : (Match.mk 0 (c :: rest)).length - 1 = (c :: rest ++ [']']).length := by
    simp [Match.length]
  have hposition : position + 1 + (c :: rest ++ [']']).length = position + rest.length + 3 := by
    simp only [List.length_append, List.length_cons, List.length_nil]
    omega
  rw [partsFrom, hmatch]
  simp only [hlength]
  rw [show c :: rest ++ ']' :: cs = (c :: rest ++ [']']) ++ cs by simp, partsFrom_skip, hposition]
  simp [Match.parts]

theorem partsFrom_style (cs : List Char) (h : IsStyle style) : ∃ position,
    partsFrom 0 0 ('[' :: (style ++ ']' :: cs)) = .tag style 0 :: partsFrom 0 position cs := by
  obtain ⟨c, rest, rfl, hbegins, -, hclose, hopen⟩ := h
  exact ⟨_, partsFrom_tag 0 cs hbegins hclose hopen⟩

theorem stack_style (position : Nat) (h : IsStyle style) :
    ∃ opened, stack [] style position = .ok opened := by
  obtain ⟨c, rest, rfl, -, hclosing, -⟩ := h
  unfold stack
  split
  · rename_i name heq
    rw [tagName, List.takeWhile_cons] at heq
    split at heq
    · exact absurd (List.cons.inj heq).1 hclosing
    · exact absurd heq nofun
  · exact ⟨_, rfl⟩

end Markup

theorem Console.line_styled {screen : Screen} {item : Item} {styleName message : String}
    (hstyle : Markup.IsStyle styleName.toList) (hstart : ∀ c ∈ start, Markup.IsShown c)
    (hmessage : message.toList = start ++ cs)
    (h : line screen (styled styleName message) = .ok item) :
    ∃ text tail, item = .line text ∧ text.toList = start ++ tail := by
  obtain ⟨shown, hshown, rfl⟩ := World.map_eq_ok.mp h
  have hmarkup : (styled styleName message).toList =
      '[' :: (styleName.toList ++ ']' :: (start ++ (cs ++ ("[/" ++ styleName ++ "]").toList))) := by
    simp [styled, hmessage]
  obtain ⟨position, hparts⟩ :=
    Markup.partsFrom_style (start ++ (cs ++ ("[/" ++ styleName ++ "]").toList)) hstyle
  obtain ⟨opened, hopened⟩ := Markup.stack_style 0 hstyle
  have hplain : ∀ c ∈ start, Markup.IsPlain c := fun c hc => (hstart c hc).isPlain
  have hvisible : ∃ tail, Markup.renderParts []
      (Markup.partsFrom 0 0 (styled styleName message).toList) = .ok (start ++ tail) := by
    cases hrender : Markup.renderParts []
        (Markup.partsFrom 0 0 (styled styleName message).toList) with
    | error f =>
      rw [Markup.render_error_iff.mpr hrender] at hshown
      exact absurd hshown nofun
    | ok visible =>
      rw [hmarkup, hparts, Markup.renderParts, hopened] at hrender
      simp only [Markup.partsFrom_append hplain, Markup.renderParts_append hplain] at hrender
      obtain ⟨tail, -, rfl⟩ := World.map_eq_ok.mp hrender
      exact ⟨tail, rfl⟩
  obtain ⟨tail, hvisible⟩ := hvisible
  obtain ⟨tail', hrender⟩ := Markup.render_append screen.emoji hvisible fun hmem =>
    (hstart _ hmem).2.2.2.2.2 rfl
  have hkept : (start ++ tail').filter (!Markup.isDropped ·) =
      start ++ tail'.filter (!Markup.isDropped ·) := by
    rw [List.filter_append, List.filter_eq_self.mpr fun c hc => by simp [(hstart c hc).2.2.1]]
  obtain ⟨tail'', htail⟩ := Text.expandTabs_append
    (s := String.ofList ((start ++ tail').filter (!Markup.isDropped ·)))
    (fun hc => (hstart _ hc).2.2.2.1 rfl) (fun hc => (hstart _ hc).2.2.2.2.1 rfl)
    (String.toList_ofList.trans hkept)
  obtain rfl := Except.ok.inj (hrender.symm.trans hshown)
  exact ⟨_, tail'' ++ "\n".toList, rfl, by rw [String.toList_append, htail, List.append_assoc]⟩

end DeletionGuard
