import DeletionGuard.Proofs.Run.Stripping

/-!
The effect of removals one after another. A removal clears what it would have cleared before the
others, as far as that is still there; so a run strips the world of what each of its outcomes takes
away on its own, whatever their order.
-/
namespace DeletionGuard
open FileTree

namespace Remover
variable {s : Remover} {w w₁ : World} {t : FileTree} {target : Target} {o : Outcome}
  {done rest : List Outcome} {r : Removals} {l m : Location}

/-- What the removal of a place takes away. The trash gets all or nothing. -/
def Sweeps (s : Remover) (w : World) (l m : Location) : Prop :=
  if s.useTrash then w.Accepts l ∧ l <+: m ∧ w.tree.Occupied m
  else w.tree.Cleared l m

theorem remove_clears (hdry : s.dryRun = false) (hpart : w.tree.PartOf t)
    (hplaced : target.Placed t) :
    w.Clears (s.Sweeps w target.resolved.parts) target.resolved.parts (s.remove w target) := by
  have hpath : target.resolved = ⟨.single, target.resolved.parts⟩ := by rw [← hplaced.1]
  have hplace : t.Occupied target.resolved.parts := hplaced.occupied.2
  have hdir := hplaced.isDir_eq
  unfold remove Sweeps
  rw [hdry, if_neg Bool.false_ne_true]
  generalize target.resolved.parts = l at *
  rw [hpath]
  cases s.useTrash with
  | true => exact World.discard_clears hpart hplace
  | false =>
    cases hkind : target.isDir with
    | true => exact World.removeTree_clears hpart (hdir.trans hkind)
    | false => exact World.unlink_clears hpart hplace (hdir.trans hkind)

/-- What an outcome takes away when it is acted on in a world. -/
def Takes (s : Remover) (w : World) (o : Outcome) (m : Location) : Prop :=
  ∃ target bypassed, Allows o target bypassed ∧ s.Sweeps w target.resolved.parts m

def clear (s : Remover) (w : World) (o : Outcome) : World :=
  match o.finding with
  | .judged target (.verdict (.allow _)) => (s.remove w target).1
  | _ => w

theorem act_world : (s.act r o).world = s.clear r.world o := by
  obtain ⟨raw, finding⟩ := o
  match finding with
  | .judged target (.verdict (.allow bypassed)) =>
    unfold act clear
    dsimp only
    split
    · rw [print_world]
    · split
      · rw [report_world]
      · rfl
  | .unverifiable _ | .judged _ (.verdict (.block _)) | .judged _ (.error _) =>
    rw [act, report_world]
    rfl
  | .judged _ .skipped => rfl

theorem clear_of_not_allowed (h : o.allowed = false) : s.clear w o = w := by
  obtain ⟨raw, finding⟩ := o
  match finding with
  | .judged target (.verdict (.allow bypassed)) => exact absurd h nofun
  | .unverifiable _ | .judged _ (.verdict (.block _)) | .judged _ (.error _) | .judged _ .skipped =>
    rfl

/-- An outcome is about the entry at its canonical path, if it allows to remove it. -/
def Placed (w : World) (o : Outcome) : Prop :=
  ∀ target bypassed, Allows o target bypassed → target.Placed w.tree

theorem takes_iff_of_allows {bypassed : Bool} (h : Allows o target bypassed) :
    s.Takes w o m ↔ s.Sweeps w target.resolved.parts m := by
  constructor
  · rintro ⟨target', bypassed', h', hm⟩
    obtain ⟨rfl, -⟩ := Finding.judged.inj (h.symm.trans h')
    exact hm
  · exact fun hm => ⟨target, bypassed, h, hm⟩

theorem clear_stripped (hdry : s.dryRun = false) (hpart : w₁.tree.PartOf w.tree)
    (ho : Placed w o) : w₁.Stripped (s.Takes w₁ o) (s.clear w₁ o) := by
  cases hallowed : o.allowed with
  | true =>
    obtain ⟨target, bypassed, hallows⟩ := exists_allows_of_allowed hallowed
    have hclear : s.clear w₁ o = (s.remove w₁ target).1 := by rw [clear, hallows]
    rw [hclear]
    refine (remove_clears hdry hpart (ho target bypassed hallows)).stripped.congr fun m => ?_
    exact (takes_iff_of_allows hallows).symm
  | false =>
    rw [clear_of_not_allowed hallowed]
    refine .refl fun m ⟨target, bypassed, hallows, _⟩ => ?_
    rw [Outcome.allowed, Outcome.verdict?, hallows] at hallowed
    exact absurd hallowed nofun

theorem sweeps_iff (h : w.Stripped (fun m => ∃ o ∈ done, s.Takes w o m) w₁) :
    s.Sweeps w₁ l m ↔ s.Sweeps w l m ∧ ¬∃ o ∈ done, s.Takes w o m := by
  unfold Sweeps
  cases htrash : s.useTrash with
  | true =>
    have hocc : w₁.tree.Occupied m ↔ w.tree.Occupied m ∧ ¬∃ o ∈ done, s.Takes w o m := by
      rw [h.pruned.occupied_iff, ← Bool.not_eq_true, h.lost_iff]
    simp only [if_true, hocc]
    constructor
    · rintro ⟨haccepts, hbelow, hm⟩
      have hl := (hocc.mpr hm).above hbelow
      exact ⟨⟨(h.accepts_iff hl).mp haccepts, hbelow, hm.1⟩, hm.2⟩
    · rintro ⟨⟨haccepts, hbelow, hm⟩, hstill⟩
      have hl := (hocc.mpr ⟨hm, hstill⟩).above hbelow
      exact ⟨(h.accepts_iff hl).mpr haccepts, hbelow, hm, hstill⟩
  | false =>
    have htakes {o : Outcome} {m : Location} (hm : s.Takes w o m) :
        ∃ l, w.tree.Cleared l m ∧ ∀ k, w.tree.Cleared l k → s.Takes w o k := by
      obtain ⟨target, bypassed, hallows, hsweeps⟩ := hm
      simp only [Sweeps, htrash, Bool.false_eq_true, if_false] at hsweeps
      refine ⟨_, hsweeps, fun k hk => ⟨target, bypassed, hallows, ?_⟩⟩
      simpa only [Sweeps, htrash, Bool.false_eq_true, if_false] using hk
    have hlosable : Losable (lost w.tree w₁.tree) w.tree := by
      constructor
      · intro k k' hk hbelow hocc
        obtain ⟨o, ho, hk⟩ := (h.lost_iff _).mp hk
        obtain ⟨l', hcleared, hall⟩ := htakes hk
        exact (h.lost_iff _).mpr ⟨o, ho, hall _ (hcleared.closed hbelow hocc)⟩
      · intro k hk _
        obtain ⟨o, -, hk⟩ := (h.lost_iff _).mp hk
        obtain ⟨l', hcleared, -⟩ := htakes hk
        exact hcleared.takes
    simp only [Bool.false_eq_true, if_false]
    rw [h.pruned.cleared_iff hlosable, ← Bool.not_eq_true, h.lost_iff]

theorem takes_iff (h : w.Stripped (fun m => ∃ o ∈ done, s.Takes w o m) w₁) :
    s.Takes w₁ o m ↔ s.Takes w o m ∧ ¬∃ o ∈ done, s.Takes w o m := by
  unfold Takes at *
  simp only [sweeps_iff h]
  constructor
  · rintro ⟨target, bypassed, hallows, hm, hstill⟩
    exact ⟨⟨target, bypassed, hallows, hm⟩, hstill⟩
  · rintro ⟨⟨target, bypassed, hallows, hm⟩, hstill⟩
    exact ⟨target, bypassed, hallows, hm, hstill⟩

theorem clear_after (hdry : s.dryRun = false) (ho : Placed w o)
    (h : w.Stripped (fun m => ∃ o ∈ done, s.Takes w o m) w₁) :
    w.Stripped (fun m => ∃ o' ∈ done ++ [o], s.Takes w o' m) (s.clear w₁ o) := by
  refine (h.trans (clear_stripped hdry h.partOf ho)).congr fun m => ?_
  rw [takes_iff h]
  simp only [List.mem_append, List.mem_singleton, or_and_right, exists_or, exists_eq_left]
  by_cases hm : ∃ o ∈ done, s.Takes w o m <;> simp [hm]

/-- Outcomes acted on one after another strip the world of what each takes away on its own. -/
theorem foldl_clear_stripped (hdry : s.dryRun = false) (hplaced : ∀ o ∈ rest, Placed w o)
    (h : w.Stripped (fun m => ∃ o ∈ done, s.Takes w o m) w₁) :
    w.Stripped (fun m => ∃ o ∈ done ++ rest, s.Takes w o m) (rest.foldl s.clear w₁) := by
  induction rest generalizing done w₁ with
  | nil => rwa [List.append_nil]
  | cons o rest ih =>
    rw [List.foldl_cons, List.append_cons]
    exact ih (fun o' ho' => hplaced o' (List.mem_cons_of_mem o ho'))
      (clear_after hdry (hplaced o List.mem_cons_self) h)

theorem foldl_stripped (hdry : s.dryRun = false) (hplaced : ∀ o ∈ done, Placed w o) :
    w.Stripped (fun m => ∃ o ∈ done, s.Takes w o m) (done.foldl s.clear w) :=
  foldl_clear_stripped hdry hplaced (.refl fun _ ⟨_, ho, _⟩ => absurd ho List.not_mem_nil)

end Remover
end DeletionGuard
