import DeletionGuard.CommandLine.Transcript
import DeletionGuard.Proofs.Path.Place

/-!
What stands behind `--`. The words before it are sorted on their own, and it ends them unless one of
them takes it as its value; no word behind it is looked at.
-/
namespace DeletionGuard

namespace CommandLine

/-- Words that are read one after another to the last, with no separator among them. A value that is
the next word may look like anything. -/
inductive Sorts (known : List Switch) : List String → Words → Prop where
  | nil : Sorts known [] ⟨[], []⟩
  | argument {word : String} {line : List String} {ws : Words} (hword : isOption word = false)
      (h : Sorts known line ws) : Sorts known (word :: line) (ws.addArgument word)
  | options {word : String} {line : List String} {ws : Words} {gs : List Given} (hne : word ≠ "--")
      (hword : isOption word = true) (hread : readOption known word.toList = .ok (gs, none))
      (h : Sorts known line ws) : Sorts known (word :: line) (ws.addOptions gs)
  | valued {word v : String} {line : List String} {ws : Words} {gs : List Given} {s : Switch}
      (hne : word ≠ "--") (hword : isOption word = true)
      (hread : readOption known word.toList = .ok (gs, some s)) (h : Sorts known line ws) :
      Sorts known (word :: v :: line) (ws.addOptions (gs ++ [(s, v)]))

variable {known : List Switch} {word : String} {line front ps : List String} {ws : Words}

namespace Words

def append (ws vs : Words) : Words :=
  ⟨ws.options ++ vs.options, ws.arguments ++ vs.arguments⟩

theorem addOptions_append (ws vs : Words) (gs : List Given) :
    (ws.addOptions gs).append vs = (ws.append vs).addOptions gs := by
  simp only [addOptions, append, List.append_assoc]

end Words

theorem sort_option (known : List Switch) (rest : List String) (hne : word ≠ "--")
    (hword : isOption word = true) : sort known true (word :: rest) =
      match readOption known word.toList with
      | .error m => .error m
      | .ok (gs, none) => (sort known true rest).map (Words.addOptions gs)
      | .ok (gs, some s) =>
        match rest with
        | [] => .error .badValue
        | v :: rest => (sort known true rest).map (Words.addOptions (gs ++ [(s, v)])) := by
  rw [sort, if_neg hne, hword]
  rfl

theorem sort_argument (known : List Switch) (rest : List String) (hword : isOption word = false) :
    sort known true (word :: rest) = (sort known true rest).map (Words.addArgument word) := by
  have hne : word ≠ "--" := by
    rintro rfl
    exact absurd hword (by decide)
  rw [sort, if_neg hne, hword]
  rfl

theorem Sorts.of_arguments (h : ∀ p ∈ ps, isOption p = false) : Sorts known ps ⟨[], ps⟩ := by
  induction ps with
  | nil => exact .nil
  | cons p ps ih => exact .argument (h p (by simp)) (ih fun q hq => h q (List.mem_cons_of_mem p hq))

theorem Sorts.sort_append (h : Sorts known front ws) (rest : List String) :
    sort known true (front ++ rest) = (sort known true rest).map ws.append := by
  induction h with
  | nil =>
    rw [List.nil_append]
    cases sort known true rest <;> rfl
  | argument hword h ih =>
    rw [List.cons_append, sort_argument known _ hword, ih]
    cases sort known true rest <;> rfl
  | options hne hword hread h ih | valued hne hword hread h ih =>
    rw [List.cons_append, sort_option known _ hne hword, hread]
    simp only [List.cons_append, ih]
    cases sort known true rest with
    | error m => rfl
    | ok vs => simp only [Except.map, Words.addOptions_append]

theorem Sorts.sort_eq (h : Sorts known line ws) : sort known true line = .ok ws := by
  have hsort := h.sort_append []
  rw [List.append_nil] at hsort
  rw [hsort, sort]
  simp only [Except.map, Words.append, List.append_nil]

theorem Sorts.sort_separator (h : Sorts known front ws) (ps : List String) :
    sort known true (front ++ "--" :: ps) = .ok ⟨ws.options, ws.arguments ++ ps⟩ := by
  rw [h.sort_append, sort, if_pos rfl]
  simp only [Except.map, Words.append, List.append_nil]

def SortsTo (known : List Switch) (line : List String) (ws : Words) : Prop :=
  Sorts known line ws ∨ ∃ front ps vs, line = front ++ "--" :: ps ∧ Sorts known front vs ∧
    ws = ⟨vs.options, vs.arguments ++ ps⟩

theorem SortsTo.sort_eq (h : SortsTo known line ws) : sort known true line = .ok ws := by
  obtain h | ⟨front, ps, vs, rfl, h, rfl⟩ := h
  · exact h.sort_eq
  · exact h.sort_separator ps

end CommandLine

open CommandLine

namespace Selection

def plain (paths : List String) : Selection :=
  ⟨⟨false, false⟩, none, paths⟩

end Selection

namespace World
variable {w : World} {front ps : List String} {ws : Words} {config : Option Path}

theorem readLine_rm (w : World) (line : List String) :
    w.readLine ("rm" :: line) = w.readRouted ("rm" :: line) := by
  have hverb : Verb.ofWord? "rm" = some .rm := by decide
  rw [readLine, routeLine, hverb]
  rfl

theorem readLine_words {line : List String}
    (h : SortsTo [.recursive, .force, .dryRun, .trash, .config, .verbose, .help] line ws)
    (hhelp : ws.has .help = false) (hconfig : w.configIn ws = .ok config)
    (hpaths : ws.arguments ≠ []) :
    w.readLine ("rm" :: line) =
      .ok ⟨.remove ⟨⟨ws.has .recursive, ws.has .force⟩, config, ws.arguments⟩
        (ws.has .dryRun) (ws.has .trash), ws.has .verbose⟩ := by
  have hverb : Verb.ofWord? "rm" = some .rm := by decide
  simp only [readLine_rm, readRouted, hverb, readCommand, readRemove, h.sort_eq, Except.bind,
    unlessHelp, selection, hconfig, hhelp, hpaths, if_false, Except.map, Bool.false_eq_true]

theorem readLine_separator
    (h : Sorts [.recursive, .force, .dryRun, .trash, .config, .verbose, .help] front ws)
    (hhelp : ws.has .help = false) (hconfig : w.configIn ws = .ok config) (hps : ps ≠ []) :
    w.readLine ("rm" :: (front ++ "--" :: ps)) =
      .ok ⟨.remove ⟨⟨ws.has .recursive, ws.has .force⟩, config, ws.arguments ++ ps⟩
        (ws.has .dryRun) (ws.has .trash), ws.has .verbose⟩ :=
  readLine_words (.inr ⟨front, ps, ws, rfl, h, rfl⟩) hhelp hconfig (by simp [hps])

theorem readLine_default {word : String} (rest : List String)
    (hverb : ∀ verb : Verb, verb.word ≠ word) (hoption : word ∉ ["--help", "--version", "-V"]) :
    w.readLine (word :: rest) = w.readLine ("rm" :: word :: rest) := by
  have hnone : Verb.ofWord? word = none := by
    refine List.find?_eq_none.mpr fun verb _ => ?_
    simpa using hverb verb
  have hprogram : isProgramOption word = false := by
    simpa [isProgramOption, and_assoc] using hoption
  rw [readLine_rm, readLine, routeLine, hnone, hprogram]
  rfl

/-- The readings of a line that starts with a separator or a path. -/
theorem run_separator (w : World) :
    (∀ ps, ps ≠ [] →
      w.readLine ("--" :: ps) = .ok ⟨.remove (.plain ps) false false, false⟩ ∧
      w.run ("--" :: ps) = { w.runRemove (.plain ps) false false with
        log := Event.shown false (w.runRemove (.plain ps) false false).log } ∧
      ((∀ p ∈ ps, isOption p = false) → w.run ("--" :: ps) = w.run ("rm" :: ps))) ∧
    ∀ word rest, (∀ verb : Verb, verb.word ≠ word) → word ∉ ["--help", "--version", "-V"] →
      w.run (word :: rest) = w.run ("rm" :: word :: rest) := by
  have hline (ps : List String) : w.readLine ("--" :: ps) = w.readLine ("rm" :: "--" :: ps) :=
    readLine_default ps (by rintro ⟨⟩ <;> decide) (by decide)
  refine ⟨fun ps hps => ?_, fun word rest hverb hoption => ?_⟩
  · have hread : w.readLine ("--" :: ps) = .ok ⟨.remove (.plain ps) false false, false⟩ :=
      (hline ps).trans (readLine_separator .nil rfl rfl hps)
    refine ⟨hread, by rw [run, hread]; rfl, fun hplain => ?_⟩
    have hwords : w.readLine ("rm" :: ps) = .ok ⟨.remove (.plain ps) false false, false⟩ :=
      readLine_words (.inl (.of_arguments hplain)) rfl rfl hps
    rw [run, run, hread, hwords]
  · rw [run, run, readLine_default rest hverb hoption]

/-- Names of commands and options, an empty path and a separator are read as paths. -/
theorem run_separator_words :
    let w : World :=
      { tree := FileTree.empty.put ["p", "-r"] (.dir .nothing), cwd := "/p", env := [], users := [],
        ownHome := none, git := none, trashError := none }
    let ps := ["init", "-r", "", "--"]
    w.readLine ("--" :: ps) = .ok ⟨.remove (.plain ps) false false, false⟩ ∧
      w.run ["init.txt", "-r"] = w.run ["rm", "init.txt", "-r"] := by
  intro w ps
  exact ⟨((run_separator w).1 ps (by decide)).1,
    (run_separator w).2 "init.txt" ["-r"] (by rintro ⟨⟩ <;> decide) (by decide)⟩

end World
end DeletionGuard
