import DeletionGuard.Proofs.Run.Failing
import DeletionGuard.Proofs.Run.Records
import Mathlib.Data.List.Forall2

/-!
In a clean world every argument is answered. A directory that cannot be read is refused, and so is
a path that cannot be resolved; no other failure is met on the way to an outcome.
-/
namespace DeletionGuard
open FileTree World
variable {w : World} {ev : Evaluator} {flags : Flags} {raw text : String} {raws : List String}
  {p : Path} {t : Target} {f : Failure} {n : Nat} {pending leaves : List Path}

namespace World

theorem Reported.ne_nul (h : Reported p.text f) (hp : p.Clean) : f ≠ .nulInPath := by
  rintro rfl
  obtain hsystem | ⟨-, hholds⟩ := h
  · exact absurd hsystem nofun
  · rw [hp.not_holds_text] at hholds
    exact absurd hholds nofun

theorem clean_of_list {entries : List (String × Entry)} (hnames : w.tree.NamesClean)
    (h : w.list text = .ok entries) : ∀ x ∈ entries, Text.holds Text.nul x.1 = false := by
  obtain ⟨l, -, h⟩ := bind_eq_ok.mp h
  split at h
  · split at h
    · exact absurd h nofun
    · intro x hx
      rw [← Except.ok.inj h] at hx
      exact hnames _ _ (mem_children.mp hx) x.1 (by simp)
  · exact absurd h nofun

theorem clean_of_mem {entries : List (String × Entry)} {q : Path} (hp : p.Clean)
    (hclean : ∀ x ∈ entries, Text.holds Text.nul x.1 = false)
    (hq : q ∈ subdirectories p entries ∨ q ∈ leavesIn p entries) : q.Clean := by
  have hchild : ∃ x ∈ entries, p.child x.1 = q := by
    obtain hq | hq := hq
    · obtain ⟨x, hx, hxq⟩ := List.mem_map.mp (List.mem_reverse.mp hq)
      exact ⟨x, (List.mem_filter.mp hx).1, hxq⟩
    · obtain ⟨x, hx, hxq⟩ := List.mem_map.mp hq
      exact ⟨x, (List.mem_filter.mp hx).1, hxq⟩
  obtain ⟨x, hx, rfl⟩ := hchild
  exact clean_child hp (hclean x hx)

theorem gather_clean (hnames : w.tree.NamesClean) (hpending : ∀ p ∈ pending, p.Clean) :
    (∀ leaves, w.gather n pending = .ok leaves → ∀ leaf ∈ leaves, leaf.Clean) ∧
      ∀ u, w.gather n pending = .error u → u.failure ≠ .nulInPath := by
  induction n generalizing pending with
  | zero =>
    cases pending with
    | nil =>
      refine ⟨fun leaves h leaf hleaf => ?_, by rintro u ⟨⟩⟩
      rw [← Except.ok.inj h] at hleaf
      exact absurd hleaf List.not_mem_nil
    | cons d pending =>
      refine ⟨by rintro leaves ⟨⟩, fun u h => ?_⟩
      rw [← Except.error.inj h]
      rintro ⟨⟩
  | succ n ih =>
    cases pending with
    | nil =>
      refine ⟨fun leaves h leaf hleaf => ?_, by rintro u ⟨⟩⟩
      rw [← Except.ok.inj h] at hleaf
      exact absurd hleaf List.not_mem_nil
    | cons d pending =>
      obtain ⟨hd, hpending⟩ := List.forall_mem_cons.mp hpending
      rw [gather]
      cases hlist : w.list d.text with
      | error f =>
        refine ⟨by rintro leaves ⟨⟩, fun u h => ?_⟩
        rw [← Except.error.inj h]
        exact (reported_of_list hlist).ne_nul hd
      | ok entries =>
        have hentries := clean_of_list hnames hlist
        have hnext : ∀ q ∈ subdirectories d entries ++ pending, q.Clean := by
          intro q hq
          obtain hq | hq := List.mem_append.mp hq
          · exact clean_of_mem hd hentries (.inl hq)
          · exact hpending q hq
        obtain ⟨hok, herror⟩ := ih hnext
        refine ⟨fun leaves h leaf hleaf => ?_, fun u h => herror u (map_eq_error.mp h)⟩
        obtain ⟨others, hothers, rfl⟩ := map_eq_ok.mp h
        obtain hleaf | hleaf := List.mem_append.mp hleaf
        · exact clean_of_mem hd hentries (.inr hleaf)
        · exact hok others hothers leaf hleaf

theorem Clean.exists_judge (h : w.Clean) (hbase : ev.base.Clean)
    (hraw : Text.holds Text.nul raw = false) : ∃ v, ev.judge w raw = .ok v := by
  unfold Evaluator.judge
  split
  · exact ⟨_, rfl⟩
  · exact ⟨_, rfl⟩
  · rename_i f hf
    exact absurd hf (h.resolve hbase hraw f)

theorem Clean.exists_judgeAll (h : w.Clean) (hbase : ev.base.Clean)
    (hleaves : ∀ leaf ∈ leaves, leaf.Clean) : ∃ v, ev.judgeAll w leaves = .ok v := by
  induction leaves with
  | nil => exact ⟨_, rfl⟩
  | cons leaf rest ih =>
    obtain ⟨hleaf, hrest⟩ := List.forall_mem_cons.mp hleaves
    obtain ⟨v, hv⟩ := h.exists_judge hbase hleaf.not_holds_text
    rw [Evaluator.judgeAll_cons, hv]
    dsimp only
    split
    · exact ⟨v, rfl⟩
    · exact ih hrest

theorem Clean.exists_judgeTree (h : w.Clean) (hbase : ev.base.Clean) (hp : t.resolved.Clean) :
    ∃ v, ev.judgeTree w t = .ok v := by
  have hpending : ∀ p ∈ [t.resolved], p.Clean := fun p hmem => List.mem_singleton.mp hmem ▸ hp
  obtain ⟨hok, herror⟩ := gather_clean (n := w.tree.entries.length + 1) h.names hpending
  unfold Evaluator.judgeTree
  split
  · rename_i u hu
    rw [obstacle, if_neg (herror u hu)]
    exact ⟨_, rfl⟩
  · rename_i leaves hleaves
    exact h.exists_judgeAll hbase (hok leaves hleaves)

theorem Clean.exists_answer (h : w.Clean) (hbase : ev.base.Clean)
    (hresolve : w.resolve ev.base raw = .ok t) (flags : Flags)
    (bypass : Option Verdict) : ∃ a, ev.answer w flags t bypass = .ok a := by
  unfold Evaluator.answer
  split
  · exact ⟨_, rfl⟩
  · split
    · exact ⟨_, rfl⟩
    · rename_i hexists
      split
      · exact ⟨_, rfl⟩
      · split
        · exact ⟨_, rfl⟩
        · split
          · have hp := clean_of_resolve h.names hresolve (by simpa using hexists)
            obtain ⟨v, hv⟩ := h.exists_judgeTree hbase hp
            exact ⟨.verdict v, by rw [hv]; rfl⟩
          · exact ⟨_, rfl⟩

theorem Clean.exists_evaluate (h : w.Clean) (hbase : ev.base.Clean)
    (hraw : Text.holds Text.nul raw = false) (flags : Flags) :
    ∃ o, ev.evaluate w flags raw = .ok o := by
  unfold Evaluator.evaluate
  cases hresolve : w.resolve ev.base raw with
  | error x =>
    cases x with
    | failure f => exact absurd hresolve (h.resolve hbase hraw f)
    | unverifiable u => exact ⟨_, rfl⟩
  | ok t =>
    dsimp only
    split
    · exact ⟨_, rfl⟩
    · obtain ⟨a, ha⟩ := h.exists_answer hbase hresolve flags (ev.guard.boundary t)
      exact ⟨⟨raw, .judged t a⟩, by rw [ha]; rfl⟩

end World

namespace Evaluator

theorem process_forall₂ {outcomes : List Outcome} (h : ev.process w flags raws = .ok outcomes) :
    List.Forall₂ (ev.Answered w) raws outcomes := by
  induction raws generalizing outcomes with
  | nil =>
    rw [← Except.ok.inj h]
    exact .nil
  | cons raw rest ih =>
    rw [process_cons] at h
    split at h
    · exact absurd h nofun
    · rename_i o ho
      obtain ⟨others, hothers, rfl⟩ := map_eq_ok.mp h
      exact .cons (answered_of_evaluate ho) (ih hothers)

theorem exists_process (h : w.Clean) (hbase : ev.base.Clean)
    (hraws : ∀ raw ∈ raws, Text.holds Text.nul raw = false) (flags : Flags) :
    ∃ outcomes, ev.process w flags raws = .ok outcomes := by
  induction raws with
  | nil => exact ⟨[], rfl⟩
  | cons raw rest ih =>
    obtain ⟨hraw, hrest⟩ := List.forall_mem_cons.mp hraws
    obtain ⟨o, ho⟩ := h.exists_evaluate hbase hraw flags
    obtain ⟨others, hothers⟩ := ih hrest
    exact ⟨o :: others, by rw [process_cons, ho, hothers]; rfl⟩

end Evaluator
end DeletionGuard
