import DeletionGuard.Proofs.Run.Flags
import DeletionGuard.Proofs.Text.Joining

/-!
The wording of a run, line by line. Every line names its argument and tells what was meant to be
told, except that a complaint that repeats the argument loses part of both where the first of them
ends in an open tag and the second starts with what closes it, and that an emoji may stand for the
code that a colon ends.
-/
namespace DeletionGuard
open Console (Item)
open Markup
variable {s : Remover} {raw message : String}

namespace Markup

theorem pairs_red : Pairs "red".toList "red".toList :=
  pairs_of_isLower (by decide) (by decide)

theorem partsFrom_styled {style : String} {name : List Char} (h : Pairs style.toList name)
    (body : String) : ∃ position,
      renderParts [] (partsFrom 0 0 (Console.styled style body).toList) = renderParts [name]
        (partsFrom 0 position (body.toList ++ ("[/" ++ style ++ "]").toList)) := by
  obtain ⟨⟨c, rest, hstyle, hbegins⟩, ⟨hclose, hopen⟩, hopened, -⟩ := h
  have hmarkup : (Console.styled style body).toList =
      '[' :: (c :: rest ++ ']' :: (body.toList ++ ("[/" ++ style ++ "]").toList)) := by
    simp [Console.styled, hstyle]
  rw [hstyle, List.mem_cons, not_or] at hclose hopen
  refine ⟨0 + rest.length + 3, ?_⟩
  rw [hmarkup, partsFrom_tag 0 _ hbegins hclose.2 hopen.2, ← hstyle, renderParts, hopened]

end Markup

namespace Remover

def complaintText (raw message : String) : String :=
  "safe-rm: " ++ raw ++ ": " ++ message

theorem partsFrom_end (position : Nat) :
    partsFrom 0 position "[/red]".toList = [.tag ('/' :: "red".toList) position] :=
  have hclose : ']' ∉ "red".toList := by decide
  partsFrom_tag position [] (c := '/') rfl hclose (by decide)

theorem apart_end (h : Literal message) : Apart message.toList "[/red]".toList := by
  refine ⟨fun c hc => ?_, fun hback => ?_, fun _ => by unfold Closing; decide⟩
  · obtain rfl : '[' = c := Option.some.inj hc
    decide
  · exact absurd (hback.subset List.mem_cons_self) h.not_mem

theorem literal_complaintText (hraw : Literal raw) (hmessage : Literal message) :
    Literal (complaintText raw message) :=
  .append (.append (.append (by decide) hraw) (by decide)) hmessage

def complaintMarkup (raw message : String) : String :=
  Console.styled "red" ("safe-rm: " ++ escape raw ++ ": " ++ escape message)

theorem partsFrom_complaint (raw message : String) : ∃ position,
    renderParts [] (partsFrom 0 0 (complaintMarkup raw message).toList) =
        (renderParts ["red".toList] (partsFrom 0 position (escapeChars raw.toList ++
          (": ".toList ++ (escapeChars message.toList ++ "[/red]".toList))))).map
            ("safe-rm: ".toList ++ ·) := by
  have hstart : Unmarked "safe-rm: " := by decide
  have hbody : ("safe-rm: " ++ escape raw ++ ": " ++ escape message).toList ++
      ("[/" ++ "red" ++ "]").toList = "safe-rm: ".toList ++ (escapeChars raw.toList ++
        (": ".toList ++ (escapeChars message.toList ++ "[/red]".toList))) := by
    simp [escape]
  obtain ⟨position, hparts⟩ := partsFrom_styled pairs_red
    ("safe-rm: " ++ escape raw ++ ": " ++ escape message)
  have hshown : ShowsBefore ["red".toList] "safe-rm: ".toList "safe-rm: ".toList _ :=
    showsBefore_plain hstart.plain
      (escapeChars raw.toList ++ (": ".toList ++ (escapeChars message.toList ++ "[/red]".toList)))
  obtain ⟨position', hparts'⟩ := hshown position
  exact ⟨position', by rw [complaintMarkup, hparts, hbody, hparts']⟩

theorem renderParts_of_untangled (hraw : Literal raw) (hmessage : Literal message)
    (h : ¬(Unclosed raw.toList ∧ Closing message.toList)) :
    renderParts [] (partsFrom 0 0 (complaintMarkup raw message).toList) =
      .ok (complaintText raw message).toList := by
  have hcolon : Unmarked ": " := by decide
  have hapart : Apart raw.toList
      (": ".toList ++ (escapeChars message.toList ++ "[/red]".toList)) := by
    refine ⟨fun c hc => ?_, fun hback => ?_, fun hopen hclose => h ⟨hopen, ?_⟩⟩
    · obtain rfl : ':' = c := Option.some.inj hc
      decide
    · exact absurd (hback.subset List.mem_cons_self) hraw.not_mem
    · rw [escapeChars_of_not_mem hmessage.not_mem, closing_append_iff, closing_escapeTags,
        closing_append_iff] at hclose
      obtain hclose | ⟨-, hclose | ⟨-, hclose⟩⟩ := hclose
      · exact absurd hclose (by unfold Closing; decide)
      · exact hclose
      · exact absurd hclose (by unfold Closing; decide)
  have hlast : ShowsBefore ["red".toList] (escapeChars message.toList) message.toList _ :=
    showsBefore_escape hmessage.not_mem (apart_end hmessage)
  have hnext := (showsBefore_plain hcolon.plain _).append hlast
  have hfirst : ShowsBefore ["red".toList] (escapeChars raw.toList) raw.toList
      ((": ".toList ++ escapeChars message.toList) ++ "[/red]".toList) := by
    rw [List.append_assoc]
    exact showsBefore_escape hraw.not_mem hapart
  obtain ⟨position, hparts⟩ := partsFrom_complaint raw message
  obtain ⟨position', hshown⟩ := hfirst.append hnext position
  rw [List.append_assoc, List.append_assoc, partsFrom_end, renderParts,
    pairs_red.closed] at hshown
  rw [hparts, hshown]
  simp [Except.map, renderParts, complaintText]

theorem count_complaintText (raw message : String) :
    (complaintText raw message ++ "\n").toList.count ':' =
      raw.toList.count ':' + message.toList.count ':' + 2 := by
  have hstart : "safe-rm: ".toList.count ':' = 1 := by decide
  have hcolon : ": ".toList.count ':' = 1 := by decide
  have hbreak : "\n".toList.count ':' = 0 := by decide
  simp only [complaintText, String.toList_append, List.count_append, hstart, hcolon, hbreak]
  omega

/-- A tag that the two parts of a complaint make up takes the colon between them away. -/
theorem complaint_of_tangled (screen : Screen) (hraw : Literal raw) (hmessage : Literal message)
    (hopen : Unclosed raw.toList) (hclose : Closing message.toList) :
    complaint screen raw message ≠ .ok (.line (complaintText raw message ++ "\n")) := by
  have hcolon : brackets ": ".toList = [] := by decide
  intro hline
  have hline : Console.line screen (complaintMarkup raw message) = _ := hline
  obtain ⟨position, hparts⟩ := partsFrom_complaint raw message
  obtain ⟨f, hfails⟩ | ⟨opened, position', shown, hcount, hchars, hshown⟩ :=
    renderParts_tangled hraw.not_mem hmessage.not_mem hopen hclose hcolon (apart_end hmessage)
      ["red".toList] position
  · rw [hfails] at hparts
    rw [Console.line, render_error_iff.mpr hparts] at hline
    cases hline
  · rw [hshown, partsFrom_end, renderParts] at hparts
    cases hstack : stack opened ('/' :: "red".toList) position' with
    | error f =>
      rw [hstack] at hparts
      rw [Console.line, render_error_iff.mpr hparts] at hline
      cases hline
    | ok opened' =>
      rw [hstack] at hparts
      have hliteral : Literal (String.ofList ("safe-rm: ".toList ++ shown)) := by
        intro c hc
        rw [String.toList_ofList] at hc
        obtain hc | hc := List.mem_append.mp hc
        · exact (by decide : Literal "safe-rm: ") c hc
        · exact (hchars c hc).elim (hraw c) (hmessage c)
      have hrender : renderParts [] (partsFrom 0 0 (complaintMarkup raw message).toList) =
          .ok ("safe-rm: ".toList ++ shown) := by
        rw [hparts]
        simp [Except.map, renderParts]
      have hstart : "safe-rm: ".toList.count ':' = 1 := by decide
      have hle := (count_of_line hrender hliteral hline).1
      rw [count_complaintText, List.count_append, hstart] at hle
      omega

theorem codeless_complaintText {e : Emoji} (hraw : ':' ∉ raw.toList)
    (hmessage : e.Codeless message.toList) : e.Codeless (complaintText raw message).toList := by
  have hstart : e.Codeless "safe-rm:".toList := e.codeless_of_count (by decide)
  have hmiddle : e.Codeless (raw.toList ++ [':']) := by
    refine e.codeless_of_count ?_
    rw [List.count_append, List.count_eq_zero.mpr hraw]
    decide
  have htext : (complaintText raw message).toList =
      "safe-rm:".toList ++ ' ' :: (raw.toList ++ [':'] ++ ' ' :: message.toList) := by
    simp [complaintText]
  rw [htext]
  exact hstart.append rfl (hmiddle.append rfl hmessage)

/-- A complaint is worded as it is meant, unless its two parts make up a tag together or an emoji
is shown in it. -/
theorem complaint_eq_ok_iff (screen : Screen) (hraw : Literal raw) (hmessage : Literal message) :
    complaint screen raw message = .ok (.line (complaintText raw message ++ "\n")) ↔
      ¬(Unclosed raw.toList ∧ Closing message.toList) ∧
        screen.emoji.Leaves (complaintMarkup raw message) := by
  by_cases htangled : Unclosed raw.toList ∧ Closing message.toList
  · exact iff_of_false (complaint_of_tangled screen hraw hmessage htangled.1 htangled.2)
      fun h => h.1 htangled
  · have hrender := renderParts_of_untangled hraw hmessage htangled
    have hliteral := literal_complaintText hraw hmessage
    refine ⟨fun hline => ⟨htangled, ?_⟩, fun h => line_eq_ok hrender hliteral h.2⟩
    refine Classical.byContradiction fun hcode => ?_
    have hlt := (count_of_line hrender (by rwa [String.ofList_toList]) hline).2 hcode
    rw [String.toList_append, List.count_append] at hlt
    omega

theorem line_between {screen : Screen} {start ending : String} (hraw : Literal raw)
    (hstart : Unmarked start) (hending : Unmarked ending)
    (hapart : Apart raw.toList ending.toList)
    (hcode : screen.emoji.Codeless (start ++ raw ++ ending).toList) :
    Console.line screen (start ++ escape raw ++ ending) =
      .ok (.line (start ++ raw ++ ending ++ "\n")) := by
  have hfirst : ShowsBefore [] start.toList start.toList _ :=
    showsBefore_plain hstart.plain (escapeChars raw.toList ++ ending.toList ++ [])
  have hnext : ShowsBefore [] (escapeChars raw.toList) raw.toList (ending.toList ++ []) := by
    rw [List.append_nil]
    exact showsBefore_escape hraw.not_mem hapart
  have hlast : ShowsBefore [] ending.toList ending.toList [] :=
    showsBefore_plain hending.plain []
  obtain ⟨position, hshown⟩ := hfirst.append (hnext.append hlast) 0
  have hmarkup : (start ++ escape raw ++ ending).toList =
      start.toList ++ (escapeChars raw.toList ++ ending.toList) ++ [] := by
    simp [escape]
  have hliteral : Literal (start ++ raw ++ ending) :=
    .append (.append hstart.literal hraw) hending.literal
  have hrender : renderParts [] (partsFrom 0 0 (start ++ escape raw ++ ending).toList) =
      .ok (start ++ raw ++ ending).toList := by
    rw [hmarkup, hshown]
    simp [Except.map, renderParts, partsFrom]
  exact line_eq_ok hrender hliteral (leaves_of_codeless hrender hcode)

def noticeText (s : Remover) (raw : String) (bypassed : Bool) : String :=
  (if s.dryRun then "would remove" else "removed") ++ ": " ++ raw ++
    (if bypassed then " (allowed by config)" else "")

theorem codeless_noticeText {e : Emoji} (s : Remover) (bypassed : Bool)
    (hraw : e.Codeless raw.toList) : e.Codeless (s.noticeText raw bypassed).toList := by
  have hverb : e.Codeless
      ((if s.dryRun then "would remove" else "removed" : String).toList ++ [':']) :=
    e.codeless_of_count (by cases s.dryRun <;> decide)
  have hend : e.Codeless "(allowed by config)".toList := e.codeless_of_count (by decide)
  have hnote : e.Codeless (raw ++ if bypassed then " (allowed by config)" else "").toList := by
    cases bypassed with
    | false => simpa using hraw
    | true =>
      rw [String.toList_append]
      exact hraw.append (c := ' ') rfl hend
  have htext : (s.noticeText raw bypassed).toList =
      (if s.dryRun then "would remove" else "removed" : String).toList ++ [':'] ++
        ' ' :: (raw ++ if bypassed then " (allowed by config)" else "").toList := by
    simp only [noticeText, String.toList_append, List.append_assoc]
    rfl
  rw [htext]
  exact hverb.append rfl hnote

theorem notice_eq {screen : Screen} (s : Remover) (bypassed : Bool) (hraw : Literal raw)
    (hcode : screen.emoji.Codeless raw.toList) :
    s.notice screen raw bypassed = .ok (.line (s.noticeText raw bypassed ++ "\n")) := by
  refine line_between hraw ?_ ?_ ?_ (s.codeless_noticeText bypassed hcode)
  · cases s.dryRun <;> decide
  · cases bypassed <;> decide
  · cases bypassed with
    | false => exact apart_nil _
    | true =>
      exact apart_cons rfl (by decide) (matchAt_of_isPlain (by decide)) fun _ => by
        unfold Closing; decide

end Remover

theorem Emoji.codeless_glue {e : Emoji} {lines : List String}
    (h : ∀ line ∈ lines, e.Codeless line.toList) : e.Codeless (Text.glue '\n' lines).toList := by
  rw [Text.glue, String.toList_ofList]
  induction lines with
  | nil => exact e.codeless_of_not_mem List.not_mem_nil
  | cons line rest ih =>
    obtain ⟨hline, hrest⟩ := List.forall_mem_cons.mp h
    cases rest with
    | nil => simpa using hline
    | cons next rest =>
      rw [List.map_cons, List.map_cons, List.intercalate_cons_cons, List.append_assoc,
        List.singleton_append]
      exact hline.append rfl (ih hrest)

theorem Markup.brackets_glue (pieces : List String) :
    brackets (Text.glue '/' pieces).toList = pieces.flatMap fun s => brackets s.toList := by
  rw [Text.glue, String.toList_ofList]
  induction pieces with
  | nil => rfl
  | cons s rest ih =>
    cases rest with
    | nil => simp
    | cons s' rest =>
      rw [List.map_cons] at ih
      rw [List.map_cons, List.map_cons, List.intercalate_cons_cons, brackets_append,
        brackets_append, ih, List.flatMap_cons]
      simp [brackets, isBracket]

theorem Markup.brackets_ofString (raw : String) :
    brackets (Path.ofString raw).text.toList = brackets raw.toList := by
  have hdropped (pieces : List String) :
      (pieces.filter Path.isPart).flatMap (fun s => brackets s.toList) =
        pieces.flatMap fun s => brackets s.toList := by
    induction pieces with
    | nil => rfl
    | cons s rest ih =>
      by_cases hs : Path.isPart s = true
      · rw [List.filter_cons_of_pos hs, List.flatMap_cons, List.flatMap_cons, ih]
      · rw [List.filter_cons_of_neg hs, ih, List.flatMap_cons]
        obtain rfl | rfl : s = "" ∨ s = "." := by
          simpa [Path.isPart, Decidable.or_iff_not_imp_left] using hs
        · rfl
        · rfl
  have hraw : brackets raw.toList =
      (Path.ofString raw).parts.flatMap fun s => brackets s.toList := by
    rw [Path.ofString, hdropped, ← brackets_glue, Text.glue_cut]
  have hroot (r : Root) : brackets r.text.toList = [] := by cases r <;> rfl
  unfold Path.text
  split
  · rename_i hempty
    rw [hraw, hempty.2]
    rfl
  · rw [String.toList_append, brackets_append, hroot, brackets_glue, hraw, List.nil_append]

theorem Path.mem_text_ofString {c : Char} (hc : c ∈ (Path.ofString raw).text.toList) :
    c ∈ raw.toList ∨ c = '/' ∨ c = '.' := by
  have hroot (r : Root) (hc : c ∈ r.text.toList) : c = '/' := by
    cases r <;> simp [Root.text] at hc <;> exact hc
  unfold Path.text at hc
  split at hc
  · exact .inr (.inr (List.mem_singleton.mp hc))
  · rw [String.toList_append] at hc
    obtain hc | hc := List.mem_append.mp hc
    · exact .inr (.inl (hroot _ hc))
    · by_cases hslash : c = '/'
      · exact .inr (.inl hslash)
      · obtain ⟨piece, hpiece, hc⟩ := (Text.mem_glue hslash).mp hc
        refine .inl ?_
        rw [← Text.glue_cut '/' raw, Text.mem_glue hslash]
        exact ⟨piece, (List.mem_filter.mp hpiece).1, hc⟩

theorem Markup.literal_ofString (hraw : Literal raw) : Literal (Path.ofString raw).text := by
  intro c hc
  obtain hc | rfl | rfl := Path.mem_text_ofString hc
  · exact hraw c hc
  · decide
  · decide

namespace OperationError

theorem literal_message {e : OperationError} (hpath : Literal e.path.text)
    (hcause : Literal e.cause) : Literal e.message :=
  .append (.append (.append (by decide) hpath) (by decide)) hcause

theorem codeless_message {emoji : Emoji} {e : OperationError} (hpath : ':' ∉ e.path.text.toList)
    (hcause : emoji.Codeless e.cause.toList) : emoji.Codeless e.message.toList := by
  have hstart : emoji.Codeless
      ("cannot remove '".toList ++ (e.path.text.toList ++ "':".toList)) := by
    refine emoji.codeless_of_count ?_
    rw [List.count_append, List.count_append, List.count_eq_zero.mpr hpath]
    decide
  have htext : e.message.toList = "cannot remove '".toList ++ (e.path.text.toList ++ "':".toList) ++
      ' ' :: e.cause.toList := by
    have hmessage : e.message = "cannot remove '" ++ e.path.text ++ "': " ++ e.cause := rfl
    simp [hmessage]
  rw [htext]
  exact hstart.append rfl hcause

theorem closing_message {e : OperationError} (hpath : brackets e.path.text.toList ≠ []) :
    Closing e.message.toList ↔ Closing e.path.text.toList := by
  have hstart : brackets "cannot remove '".toList = [] := by decide
  have hnone : ¬Closing "cannot remove '".toList := by unfold Closing; decide
  have hmessage : e.message = "cannot remove '" ++ e.path.text ++ "': " ++ e.cause := rfl
  simp only [hmessage, String.toList_append, List.append_assoc, closing_append_iff, hstart, hnone,
    hpath, true_and, false_or, false_and, or_false]

end OperationError

namespace Block

theorem not_closing_explain (b : Block) (projectRoot : Path) :
    ¬Closing (b.explain projectRoot).toList := by
  have hexplain : ∃ tail, (b.explain projectRoot).toList =
      (b.reason.summary ++ " [" ++ b.reason.word ++ "]").toList ++ tail :=
    Text.toList_glue_cons '\n' _ _
  obtain ⟨tail, htail⟩ := hexplain
  have hhead : brackets (b.reason.summary ++ " [" ++ b.reason.word ++ "]").toList = ['[', ']'] := by
    cases b.reason <;> decide
  rw [htail, Closing, brackets_append, hhead]
  exact fun h => absurd (Option.some.inj h) (by decide)

theorem explain_eq_glue (b : Block) (projectRoot : Path) : ∃ lines,
    b.explain projectRoot = Text.glue '\n' lines ∧ ∀ line ∈ lines,
      Literal line ∧ line.toList.count ':' ≤ 1 ∨
        (∃ p, b.path = some p ∧ line = "  path: " ++ p.text) ∨
          line = "  project: " ++ projectRoot.text := by
  refine ⟨_, rfl, fun line hline => ?_⟩
  obtain rfl | hline := List.mem_cons.mp hline
  · exact .inl (by cases b.reason <;> decide)
  · obtain hline | hline := List.mem_append.mp hline
    · split at hline
      · rename_i p hp
        exact .inr (.inl ⟨p, hp, List.mem_singleton.mp hline⟩)
      · exact absurd hline List.not_mem_nil
    · unfold hints at hline
      split at hline
      · exact .inr (.inr (List.mem_singleton.mp hline))
      · rw [List.mem_cons, List.mem_singleton] at hline
        obtain rfl | rfl := hline
        · cases b.status with
          | none => exact .inl (by decide)
          | some st => cases st <;> exact .inl (by decide)
        · exact .inl (by decide)
      · rw [List.mem_singleton.mp hline]
        exact .inl (by decide)

theorem literal_explain {b : Block} {projectRoot : Path} (hroot : Literal projectRoot.text)
    (hpath : ∀ p, b.path = some p → Literal p.text) : Literal (b.explain projectRoot) := by
  obtain ⟨lines, hexplain, hlines⟩ := b.explain_eq_glue projectRoot
  intro c hc
  by_cases hbreak : c = '\n'
  · rw [hbreak]
    decide
  · obtain ⟨line, hline, hc⟩ := (Text.mem_glue hbreak).mp (hexplain ▸ hc)
    suffices hliteral : Literal line from hliteral c hc
    obtain ⟨hliteral, -⟩ | ⟨p, hp, rfl⟩ | rfl := hlines line hline
    · exact hliteral
    · exact .append (by decide) (hpath p hp)
    · exact .append (by decide) hroot

theorem codeless_explain {e : Emoji} {b : Block} {projectRoot : Path}
    (hroot : e.Codeless projectRoot.text.toList)
    (hpath : ∀ p, b.path = some p → e.Codeless p.text.toList) :
    e.Codeless (b.explain projectRoot).toList := by
  have hplace (start : String) (hstart : start.toList.count ':' ≤ 1) {p : Path}
      (hp : e.Codeless p.text.toList) : e.Codeless (start ++ " " ++ p.text).toList := by
    have htext : (start ++ " " ++ p.text).toList = start.toList ++ ' ' :: p.text.toList := by simp
    exact htext ▸ (e.codeless_of_count hstart).append rfl hp
  obtain ⟨lines, hexplain, hlines⟩ := b.explain_eq_glue projectRoot
  rw [hexplain]
  refine Emoji.codeless_glue fun line hline => ?_
  obtain ⟨-, hcount⟩ | ⟨p, hp, rfl⟩ | rfl := hlines line hline
  · exact e.codeless_of_count hcount
  · exact hplace "  path:" (by decide) (hpath p hp)
  · exact hplace "  project:" (by decide) hroot

end Block
end DeletionGuard
