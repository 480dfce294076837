import DeletionGuard.Proofs.Run.Counting
import DeletionGuard.Proofs.Text.Styles
import DeletionGuard.Report
import Mathlib.Data.List.Forall2

/-!
The table of verdicts as it is shown. A row shows one of four words for its outcome, and the line
below the table shows in numbers how often each of them occurs.
-/
namespace DeletionGuard
open Console (Item)
variable {screen : Screen} {o : Outcome} {outcomes : List Outcome} {n : Nat}

def Outcome.word (o : Outcome) : String :=
  match o.finding with
  | .unverifiable _ | .judged _ (.verdict (.block _)) => "block"
  | .judged _ .skipped => "skip"
  | .judged _ (.error _) => "error"
  | .judged _ (.verdict (.allow _)) => "allow"

theorem Outcome.word_iff (o : Outcome) : (o.word = "allow" ↔ o.allowed = true) ∧
    (o.word = "block" ↔ o.blocked = true) ∧ (o.word = "error" ↔ o.error?.isSome = true) ∧
    (o.word = "skip" ↔ o.skipped = true) := by
  obtain ⟨raw, finding⟩ := o
  match finding with
  | .unverifiable _ | .judged _ .skipped | .judged _ (.error _) | .judged _ (.verdict (.block _))
  | .judged _ (.verdict (.allow _)) =>
    simp [word, allowed, blocked, skipped, verdict?, error?, Verdict.blocked, Verdict.allowed]

def Console.Item.showing (word : String) : Item → Nat
  | .table _ _ rows => rows.countP fun row => row[2]? = some word
  | _ => 0

namespace Report
open Markup

theorem forall₂_of_mapM {α β ε : Type} {g : α → Except ε β} {xs : List α} {ys : List β}
    (h : xs.mapM g = .ok ys) : List.Forall₂ (fun x y => g x = .ok y) xs ys := by
  induction xs generalizing ys with
  | nil =>
    rw [← Except.ok.inj h]
    exact .nil
  | cons x xs ih =>
    rw [List.mapM_cons] at h
    obtain ⟨y, hy, h⟩ := World.bind_eq_ok.mp h
    obtain ⟨rest, hrest, h⟩ := World.bind_eq_ok.mp h
    rw [← Except.ok.inj h]
    exact .cons hy (ih hrest)

theorem exists_of_mapM {α β ε : Type} {g : α → Except ε β} {xs : List α} {e : ε}
    (h : xs.mapM g = .error e) : ∃ x ∈ xs, g x = .error e := by
  induction xs with
  | nil => exact absurd h nofun
  | cons x xs ih =>
    rw [List.mapM_cons] at h
    obtain h | ⟨y, -, h⟩ := World.bind_eq_error.mp h
    · exact ⟨x, List.mem_cons_self, h⟩
    · obtain h | ⟨ys, -, h⟩ := World.bind_eq_error.mp h
      · obtain ⟨x', hx', h⟩ := ih h
        exact ⟨x', List.mem_cons_of_mem x hx', h⟩
      · exact absurd h nofun

theorem render_cells (e : Emoji) (o : Outcome) : render e (cells o).1 = .ok o.word := by
  have hred : Pairs "red".toList "red".toList := pairs_of_isLower (by decide) (by decide)
  have hdim : Pairs "dim".toList "dim".toList := pairs_of_isLower (by decide) (by decide)
  have hyellow : Pairs "yellow".toList "yellow".toList := pairs_of_isLower (by decide) (by decide)
  have hgreen : Pairs "green".toList "green".toList := pairs_of_isLower (by decide) (by decide)
  have hblock : Unmarked "block" := by decide
  obtain ⟨raw, finding⟩ := o
  cases finding with
  | unverifiable b => exact render_styled e hred hblock (by decide)
  | judged t answer =>
    cases answer with
    | skipped => exact render_styled e hdim (by decide) (by decide)
    | error f => exact render_styled e hyellow (by decide) (by decide)
    | verdict v =>
      cases v with
      | block b => exact render_styled e hred hblock (by decide)
      | allow bypassed => exact render_styled e hgreen (by decide) (by decide)

theorem word_of_row {e : Emoji} {cells : List String} (h : (row n o).mapM (render e) = .ok cells) :
    cells[2]? = some o.word := by
  obtain ⟨_, _, -, hpath, rfl⟩ := List.forall₂_cons_left_iff.mp (forall₂_of_mapM h)
  obtain ⟨_, _, -, hverdict, rfl⟩ := List.forall₂_cons_left_iff.mp hpath
  obtain ⟨shown, _, hshown, -, rfl⟩ := List.forall₂_cons_left_iff.mp hverdict
  exact congrArg some (Except.ok.inj (hshown.symm.trans (render_cells e o)))

theorem showing_of_table {title : String} {columns : List String} {item : Item}
    (h : Console.table screen title columns (rows outcomes) = .ok item) (word : String) :
    item.showing word = outcomes.countP (·.word = word) := by
  obtain ⟨shown, hshown, rfl⟩ := World.map_eq_ok.mp h
  have hrows : List.Forall₂ (fun o cells => cells[2]? = some (Outcome.word o)) outcomes shown := by
    rw [← List.zipIdx_map_fst 0 outcomes, List.forall₂_map_left_iff]
    refine (List.forall₂_map_left_iff.mp (forall₂_of_mapM hshown)).imp fun p cells hcells => ?_
    exact word_of_row hcells
  rw [Console.Item.showing]
  clear h hshown
  induction hrows with
  | nil => rfl
  | cons hword _ ih => simp only [List.countP_cons, hword, ih, Option.some.injEq]

def totalsText (t : Tally) : String :=
  "\n" ++ Nat.repr t.removed ++ " allowed, " ++ Nat.repr t.blocked ++ " blocked, " ++
    Nat.repr t.failed ++ " errors, " ++ Nat.repr t.skipped ++ " skipped"

theorem line_totals (screen : Screen) (t : Tally) :
    Console.line screen (totals t) = .ok (.line (totalsText t ++ "\n")) := by
  have hbold : Pairs "bold".toList "bold".toList := pairs_of_isLower (by decide) (by decide)
  have hstart : Unmarked "\n" := by decide
  have hallowed : Unmarked " allowed, " := by decide
  have hblocked : Unmarked " blocked, " := by decide
  have herrors : Unmarked " errors, " := by decide
  have hskipped : Unmarked " skipped" := by decide
  have hnumber (n : Nat) :
      Shows (Console.styled "bold" (Nat.repr n)).toList (Nat.repr n).toList :=
    shows_styled hbold (unmarked_repr n).plain
  have hshows : Shows (totals t).toList (totalsText t).toList := by
    simp only [totals, totalsText, String.toList_append]
    refine .append (.append (.append (.append (.append (.append (.append (.append
      (shows_plain hstart.plain) (hnumber _)) (shows_plain hallowed.plain)) (hnumber _))
      (shows_plain hblocked.plain)) (hnumber _)) (shows_plain herrors.plain)) (hnumber _))
      (shows_plain hskipped.plain)
  have htext : Unmarked (totalsText t) :=
    .append (.append (.append (.append (.append (.append (.append (.append hstart
      (unmarked_repr _)) hallowed) (unmarked_repr _)) hblocked) (unmarked_repr _)) herrors)
      (unmarked_repr _)) hskipped
  have hdigits (n : Nat) : ':' ∉ Nat.toDigits 10 n := fun hmem =>
    (isShown_of_mem_repr (by rwa [Nat.toList_repr])).2.2.2.2.2 rfl
  refine line_of_shows hshows htext.literal (screen.emoji.codeless_of_not_mem ?_)
  simp [totalsText, hdigits]

/-- The table shows the outcomes, and the totals below it are those of its rows. -/
theorem display_eq_ok {items : List Item} (h : display outcomes screen = .ok items) :
    ∃ table, items = [table, .line (totalsText (.ofOutcomes outcomes) ++ "\n")] ∧
      table.showing "allow" = (Tally.ofOutcomes outcomes).removed ∧
      table.showing "block" = (Tally.ofOutcomes outcomes).blocked ∧
      table.showing "error" = (Tally.ofOutcomes outcomes).failed ∧
      table.showing "skip" = (Tally.ofOutcomes outcomes).skipped := by
  obtain ⟨table, htable, h⟩ := World.bind_eq_ok.mp h
  rw [line_totals] at h
  refine ⟨table, (Except.ok.inj h).symm, ?_⟩
  have hcount (p : Outcome → Bool) (word : String)
      (hp : ∀ o : Outcome, o.word = word ↔ p o = true) :
      table.showing word = outcomes.countP p := by
    rw [showing_of_table htable]
    exact List.countP_congr fun o _ => by rw [decide_eq_true_iff, hp]
  rw [Tally.ofOutcomes_eq]
  exact ⟨hcount _ _ fun o => o.word_iff.1, hcount _ _ fun o => o.word_iff.2.1,
    hcount _ _ fun o => o.word_iff.2.2.1, hcount _ _ fun o => o.word_iff.2.2.2⟩

theorem isMarkup_of_display (h : display outcomes screen = .error f) : f.isMarkup = true := by
  obtain h | ⟨table, -, h⟩ := World.bind_eq_error.mp h
  · obtain ⟨row, -, h⟩ := exists_of_mapM (World.map_eq_error.mp h)
    obtain ⟨cell, -, h⟩ := exists_of_mapM h
    exact isMarkup_of_render h
  · rw [line_totals] at h
    exact absurd h nofun

end Report
end DeletionGuard
