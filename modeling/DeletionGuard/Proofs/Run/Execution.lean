import DeletionGuard.Proofs.Run.Effect
import DeletionGuard.Proofs.Run.Verdicts

/-!
The effect of a run of removals, exactly. Whatever is lost is covered by an outcome that allows to
remove it, and each outcome takes away only what it covers itself. That all of it is taken away
where no removal fails, and that a run goes on where one does, holds as long as every line on the
way can be printed: a line that cannot ends the run.
-/
namespace DeletionGuard
open FileTree

namespace Remover
variable {s : Remover} {w : World} {r r₀ : Removals} {o x : Outcome}
  {outcomes front back : List Outcome} {l m : Location} {e : Entry}

/-- It is the turn of an outcome, after others that did not end the run. -/
structure Reaches (s : Remover) (r₀ : Removals) (outcomes front : List Outcome) (r : Removals)
    (o : Outcome) (back : List Outcome) : Prop where
  split : outcomes = front ++ o :: back
  state : s.actAll r₀ front = r
  going : r.crash = none

theorem actAll_append (h₀ : r₀.crash = none) : s.actAll r₀ (front ++ back) =
    if (s.actAll r₀ front).crash.isSome then s.actAll r₀ front
    else s.actAll (s.actAll r₀ front) back := by
  induction front generalizing r₀ with
  | nil => simp [actAll, h₀]
  | cons o front ih =>
    rw [List.cons_append, actAll, actAll]
    cases hcrash : (s.act r₀ o).crash with
    | none => exact ih hcrash
    | some f => simp [hcrash]

theorem actAll_cons (h : (s.act r o).crash = none) (rest : List Outcome) :
    s.actAll r (o :: rest) = s.actAll (s.act r o) rest := by
  rw [actAll, h]
  rfl

theorem going_of_cons {rest : List Outcome} (h : (s.actAll r (o :: rest)).crash = none) :
    (s.act r o).crash = none := by
  rw [actAll] at h
  split at h
  · exact h
  · rename_i hcrash
    simpa using hcrash

theorem going_of_append (h₀ : r₀.crash = none)
    (hgoing : (s.actAll r₀ (front ++ back)).crash = none) :
    (s.actAll r₀ front).crash = none := by
  rw [actAll_append h₀] at hgoing
  split at hgoing
  · exact hgoing
  · rename_i hcrash
    simpa using hcrash

theorem world_of_going (hgoing : (s.actAll r₀ front).crash = none) :
    (s.actAll r₀ front).world = front.foldl s.clear r₀.world := by
  induction front generalizing r₀ with
  | nil => rfl
  | cons o front ih =>
    have hnow := going_of_cons hgoing
    rw [actAll_cons hnow] at hgoing ⊢
    rw [ih hgoing, act_world, List.foldl_cons]

namespace Reaches

theorem rest (h₀ : r₀.crash = none) (h : s.Reaches r₀ outcomes front r o back) :
    s.actAll r₀ outcomes = s.actAll r (o :: back) := by
  obtain ⟨rfl, rfl, hgoing⟩ := h
  rw [actAll_append h₀, hgoing]
  rfl

theorem partOf (h₀ : r₀.crash = none) (h : s.Reaches r₀ outcomes front r o back) :
    (s.actAll r₀ outcomes).world.tree.PartOf (s.act r o).world.tree := by
  rw [h.rest h₀, actAll]
  split
  · exact PartOf.refl _
  · exact actAll_partOf

theorem mem (h : s.Reaches r₀ outcomes front r o back) : o ∈ outcomes := by
  rw [h.split]
  simp

theorem earlier (h₀ : r₀.crash = none) (h : s.Reaches r₀ outcomes front r o back) (hx : x ∈ front) :
    ∃ front' r' back', s.Reaches r₀ outcomes front' r' x back' := by
  obtain ⟨rfl, rfl, hgoing⟩ := h
  obtain ⟨front', between, rfl⟩ := List.append_of_mem hx
  exact ⟨front', _, between ++ o :: back, by simp, rfl, going_of_append h₀ hgoing⟩

end Reaches

theorem exists_reaches (h₀ : r₀.crash = none) (hgoing : (s.actAll r₀ outcomes).crash = none)
    (ho : o ∈ outcomes) : ∃ front r back, s.Reaches r₀ outcomes front r o back := by
  obtain ⟨front, back, rfl⟩ := List.append_of_mem ho
  exact ⟨front, _, back, rfl, rfl, going_of_append h₀ hgoing⟩

theorem exists_break (h₀ : r₀.crash = none) (hcrash : (s.actAll r₀ outcomes).crash ≠ none) :
    ∃ front r o back, s.Reaches r₀ outcomes front r o back ∧ (s.act r o).crash ≠ none ∧
      s.actAll r₀ outcomes = s.act r o := by
  induction outcomes generalizing r₀ with
  | nil => exact absurd h₀ hcrash
  | cons o rest ih =>
    rw [actAll] at hcrash ⊢
    split at hcrash
    · rename_i hnow
      rw [if_pos hnow]
      exact ⟨[], r₀, o, rest, ⟨rfl, rfl, h₀⟩, hcrash, rfl⟩
    · rename_i hgo
      rw [if_neg hgo]
      obtain ⟨front, r, o', back, ⟨rfl, hstate, hgoing⟩, hbreak, hlast⟩ :=
        ih (by simpa using hgo) hcrash
      refine ⟨o :: front, r, o', back, ⟨rfl, ?_, hgoing⟩, hbreak, hlast⟩
      rw [actAll, if_neg hgo, hstate]

/-- An outcome covers the entry it allows to remove; if that is a directory, all below it, too. -/
def Covers (o : Outcome) (l : Location) : Prop :=
  ∃ target bypassed, Allows o target bypassed ∧ (Path.mk .single l = target.resolved ∨
    target.isDir = true ∧ (Path.mk .single l).isWithin target.resolved = true)

def Fails (s : Remover) (r : Removals) (o : Outcome) : Prop :=
  ∃ target bypassed, Allows o target bypassed ∧ (s.remove r.world target).2 ≠ none

theorem covers_iff {target : Target} {bypassed : Bool} (hallows : Allows o target bypassed)
    (hplaced : target.Placed w.tree) (hfind : w.tree.find? l = some e) :
    Covers o l ↔ target.resolved.parts <+: l := by
  have hcovers : Covers o l ↔ Path.mk .single l = target.resolved ∨
      target.isDir = true ∧ (Path.mk .single l).isWithin target.resolved = true := by
    constructor
    · rintro ⟨target', bypassed', hallows', h⟩
      obtain ⟨rfl, -⟩ := Finding.judged.inj (hallows.symm.trans hallows')
      exact h
    · exact fun h => ⟨target, bypassed, hallows, h⟩
  rw [hcovers, Path.isWithin_iff]
  constructor
  · rintro (h | ⟨-, -, h⟩)
    · exact h ▸ List.prefix_refl l
    · exact h
  · intro hbelow
    cases hdir : target.isDir with
    | true => exact .inr ⟨rfl, hplaced.1.symm, hbelow⟩
    | false =>
      refine .inl ?_
      rw [← eq_of_below hbelow hfind (hplaced.isDir_eq.trans hdir), ← hplaced.1]

theorem covers_of_takes (htrash : s.useTrash = false) (ho : Placed w o) (h : s.Takes w o l) :
    Covers o l := by
  obtain ⟨target, bypassed, hallows, hsweeps⟩ := h
  simp only [Sweeps, htrash, Bool.false_eq_true, if_false] at hsweeps
  obtain ⟨e, hfind⟩ := hsweeps.occupied
  exact (covers_iff hallows (ho target bypassed hallows) hfind).mpr hsweeps.isBelow

theorem takes_of_covers (hdry : s.dryRun = false) (htrash : s.useTrash = false) (ho : Placed w o)
    (hstrip : w.Stripped (fun m => ∃ x ∈ front, s.Takes w x m) r.world) (hok : ¬s.Fails r o)
    (hfind : w.tree.find? l = some e) (h : Covers o l) : s.Takes w o l := by
  obtain ⟨target, bypassed, hallows, -⟩ := id h
  have hplaced := ho target bypassed hallows
  have hnone : (s.remove r.world target).2 = none := by
    by_contra hfails
    exact hok ⟨target, bypassed, hallows, hfails⟩
  have hself := (remove_clears hdry hstrip.partOf hplaced).success.mp hnone
  have hsweeps := ((sweeps_iff hstrip).mp hself).1
  refine ⟨target, bypassed, hallows, ?_⟩
  simp only [Sweeps, htrash, Bool.false_eq_true, if_false] at hsweeps ⊢
  exact .whole (cleared_self.mp hsweeps).2 ((covers_iff hallows hplaced hfind).mp h) ⟨e, hfind⟩

theorem Reaches.stripped (hdry : s.dryRun = false) (hplaced : ∀ o ∈ outcomes, Placed w o)
    (h : s.Reaches (.start w) outcomes front r o back) :
    w.Stripped (fun m => ∃ x ∈ front, s.Takes w x m) r.world := by
  obtain ⟨rfl, rfl, hgoing⟩ := h
  rw [world_of_going hgoing]
  exact foldl_stripped hdry fun x hx => hplaced x (by simp [hx])

theorem Reaches.act_stripped (hdry : s.dryRun = false) (hplaced : ∀ o ∈ outcomes, Placed w o)
    (h : s.Reaches (.start w) outcomes front r o back) :
    w.Stripped (fun m => ∃ x ∈ front ++ [o], s.Takes w x m) (s.act r o).world := by
  rw [act_world]
  exact clear_after hdry (hplaced o h.mem) (h.stripped hdry hplaced)

theorem execute_eq_actAll (h : (s.actAll (.start w) outcomes).crash ≠ none) :
    s.execute w outcomes = s.actAll (.start w) outcomes := by
  obtain ⟨f, hf⟩ := Option.ne_none_iff_exists'.mp h
  unfold execute
  simp [hf]

/-- A run strips the world of what the outcomes take away that it acted on. If these are not all, a
failure ended the run. -/
theorem exists_acted (hdry : s.dryRun = false) (hplaced : ∀ o ∈ outcomes, Placed w o) :
    ∃ front back, outcomes = front ++ back ∧
      w.Stripped (fun m => ∃ o ∈ front, s.Takes w o m) (s.execute w outcomes).world ∧
      (back ≠ [] → (s.execute w outcomes).crash ≠ none) := by
  rw [execute_world]
  by_cases hgoing : (s.actAll (.start w) outcomes).crash = none
  · refine ⟨outcomes, [], by simp, ?_, fun h => absurd rfl h⟩
    rw [world_of_going hgoing]
    exact foldl_stripped hdry hplaced
  · obtain ⟨front, r, o, back, hreaches, -, hlast⟩ := exists_break rfl hgoing
    refine ⟨front ++ [o], back, by simp [hreaches.split], ?_, fun _ => ?_⟩
    · rw [hlast]
      exact hreaches.act_stripped hdry hplaced
    · rwa [execute_eq_actAll hgoing]

/-- A run creates and changes nothing, and takes away only what its outcomes cover. -/
structure Confined (s : Remover) (w : World) (outcomes : List Outcome) : Prop where
  kept : (s.execute w outcomes).world.tree.PartOf w.tree
  covered : ∀ l e, w.tree.find? l = some e → (s.execute w outcomes).world.tree.find? l = none →
    ∃ o ∈ outcomes, Covers o l
  /-- Nothing is left where an outcome was counted as removed. -/
  counted : ∀ front r o back, s.Reaches (.start w) outcomes front r o back →
    (s.act r o).tally.removed ≠ r.tally.removed → ∃ target bypassed, Allows o target bypassed ∧
      target.Placed w.tree ∧
      (s.execute w outcomes).world.tree.find? target.resolved.parts = none
  /-- What a removed link leads to is not removed, unless it is covered itself. -/
  links : ∀ l target m e, w.tree.find? l = some (.link target) →
    w.locate .follow (Path.mk .single l).text = .ok m → w.tree.find? m = some e →
    (s.execute w outcomes).world.tree.find? m = none → ∃ o ∈ outcomes, Covers o m
  /-- Each outcome takes away only what it covers itself, so a link takes nothing but itself. -/
  own : ∀ front r o back, s.Reaches (.start w) outcomes front r o back →
    ∀ l e, r.world.tree.find? l = some e → (s.act r o).world.tree.find? l = none → Covers o l
  /-- An outcome that allows no removal removes nothing. -/
  idle : ∀ front r o back, s.Reaches (.start w) outcomes front r o back → o.allowed = false →
    (s.act r o).world = r.world

def NeverFails (s : Remover) (w : World) (outcomes : List Outcome) : Prop :=
  ∀ front r o back, s.Reaches (.start w) outcomes front r o back → ¬s.Fails r o

/-- A run goes on where a removal fails, and where none fails it takes away all that is covered. -/
structure ExactEffect (s : Remover) (w : World) (outcomes : List Outcome) : Prop
    extends Confined s w outcomes where
  goesOn : ∀ front r o back, s.Reaches (.start w) outcomes front r o back → s.Fails r o →
    (s.act r o).crash = none
  complete : s.NeverFails w outcomes → ∀ l e, w.tree.find? l = some e →
    ((s.execute w outcomes).world.tree.find? l = none ↔ ∃ o ∈ outcomes, Covers o l)

theorem report_removed {item : Except Failure Console.Item} {add : Tally → Tally}
    (hadd : ∀ t, (add t).removed = t.removed) :
    (r.report item add).tally.removed = r.tally.removed := by
  cases item with
  | ok i => exact hadd r.tally
  | error f => rfl

theorem act_removed (h : (s.act r o).tally.removed ≠ r.tally.removed) :
    ∃ target bypassed, Allows o target bypassed ∧ (s.remove r.world target).2 = none := by
  obtain ⟨raw, finding⟩ := o
  cases finding with
  | unverifiable b =>
    simp only [act] at h
    rw [report_removed] at h
    exacts [absurd rfl h, fun _ => rfl]
  | judged target answer =>
    cases answer with
    | skipped => exact absurd rfl h
    | error e =>
      simp only [act] at h
      rw [report_removed] at h
      exacts [absurd rfl h, fun _ => rfl]
    | verdict v =>
      cases v with
      | block b =>
        simp only [act] at h
        rw [report_removed] at h
        exacts [absurd rfl h, fun _ => rfl]
      | allow bypassed =>
        cases hfailure : (s.remove r.world target).2 with
        | none => exact ⟨target, bypassed, rfl, hfailure⟩
        | some f =>
          unfold act at h
          simp only [hfailure] at h
          split at h
          · rw [report_removed] at h
            exacts [absurd rfl h, fun _ => rfl]
          · exact absurd rfl h

section
variable (hdry : s.dryRun = false) (htrash : s.useTrash = false)
  (hplaced : ∀ o ∈ outcomes, Placed w o)
include hdry htrash hplaced

theorem confined : s.Confined w outcomes where
  kept := by
    rw [execute_world]
    exact actAll_partOf
  covered l e hbefore hafter := by
    obtain ⟨front, back, hsplit, hstrip, -⟩ := exists_acted hdry hplaced
    obtain ⟨o, ho, htakes⟩ := (hstrip.lost_iff l).mp (lost_iff.mpr ⟨⟨e, hbefore⟩, hafter⟩)
    have hmem : o ∈ outcomes := by simp [hsplit, ho]
    exact ⟨o, hmem, covers_of_takes htrash (hplaced o hmem) htakes⟩
  counted front r o back hreaches hcount := by
    obtain ⟨target, bypassed, hallows, hnone⟩ := act_removed hcount
    have htarget := hplaced o hreaches.mem target bypassed hallows
    refine ⟨target, bypassed, hallows, htarget, ?_⟩
    have hstrip := hreaches.stripped hdry hplaced
    have hclears := remove_clears hdry hstrip.partOf htarget
    have hgone := hclears.stripped.gone (hclears.success.mp hnone)
    cases hfind : (s.execute w outcomes).world.tree.find? target.resolved.parts with
    | none => rfl
    | some e =>
      rw [execute_world] at hfind
      have hstill := hreaches.partOf rfl _ _ hfind
      rw [act_world, clear, hallows, hgone] at hstill
      exact absurd hstill.symm (Option.some_ne_none e)
  links l target m e _ _ hbefore hafter := by
    obtain ⟨front, back, hsplit, hstrip, -⟩ := exists_acted hdry hplaced
    obtain ⟨o, ho, htakes⟩ := (hstrip.lost_iff m).mp (lost_iff.mpr ⟨⟨e, hbefore⟩, hafter⟩)
    have hmem : o ∈ outcomes := by simp [hsplit, ho]
    exact ⟨o, hmem, covers_of_takes htrash (hplaced o hmem) htakes⟩
  own front r o back hreaches l e hbefore hafter := by
    have hstrip := hreaches.stripped hdry hplaced
    have hclear := clear_stripped hdry hstrip.partOf (hplaced o hreaches.mem)
    rw [act_world] at hafter
    have htakes := (hclear.lost_iff l).mp (lost_iff.mpr ⟨⟨e, hbefore⟩, hafter⟩)
    exact covers_of_takes htrash (hplaced o hreaches.mem) ((takes_iff hstrip).mp htakes).1
  idle front r o back _ hidle := by
    rw [act_world, clear_of_not_allowed hidle]

theorem complete_of_reaches (hnever : s.NeverFails w outcomes)
    (hreaches : s.Reaches (.start w) outcomes front r o back) (hfind : w.tree.find? l = some e)
    (hcovers : Covers o l) : (s.execute w outcomes).world.tree.find? l = none := by
  have hstrip := hreaches.stripped hdry hplaced
  have htakes := takes_of_covers hdry htrash (hplaced o hreaches.mem) hstrip
    (hnever _ _ _ _ hreaches) hfind hcovers
  have hgone := (hreaches.act_stripped hdry hplaced).gone ⟨o, by simp, htakes⟩
  cases hafter : (s.execute w outcomes).world.tree.find? l with
  | none => rfl
  | some e' =>
    rw [execute_world] at hafter
    rw [hreaches.partOf rfl _ _ hafter] at hgone
    exact absurd hgone nofun

theorem exactEffect_of_breaks
    (h : ∀ front r o back, s.Reaches (.start w) outcomes front r o back →
      (s.act r o).crash ≠ none → ¬s.Fails r o ∧ (s.NeverFails w outcomes →
        ∀ l, w.tree.Occupied l → (∃ x ∈ back, Covers x l) → ∃ x ∈ front ++ [o], Covers x l)) :
    s.ExactEffect w outcomes where
  toConfined := confined hdry htrash hplaced
  goesOn front r o back hreaches hfails := by
    by_contra hcrash
    exact (h front r o back hreaches hcrash).1 hfails
  complete hnever l e hfind := by
    have hconfined := confined hdry htrash hplaced
    refine ⟨hconfined.covered l e hfind, ?_⟩
    rintro ⟨x, hx, hcovers⟩
    by_cases hgoing : (s.actAll (.start w) outcomes).crash = none
    · obtain ⟨front, r, back, hreaches⟩ := exists_reaches rfl hgoing hx
      exact complete_of_reaches hdry htrash hplaced hnever hreaches hfind hcovers
    · -- what is behind the break is covered by what had its turn
      obtain ⟨front, r, o, back, hreaches, hbreak, -⟩ := exists_break rfl hgoing
      have hturn : ∃ y ∈ front ++ [o], Covers y l := by
        rw [hreaches.split, List.append_cons] at hx
        obtain hx | hx := List.mem_append.mp hx
        · exact ⟨x, hx, hcovers⟩
        · exact (h front r o back hreaches hbreak).2 hnever l ⟨e, hfind⟩ ⟨x, hx, hcovers⟩
      obtain ⟨y, hy, hcovers⟩ := hturn
      obtain hy | hy := List.mem_append.mp hy
      · obtain ⟨front', r', back', hreaches'⟩ := hreaches.earlier rfl hy
        exact complete_of_reaches hdry htrash hplaced hnever hreaches' hfind hcovers
      · obtain rfl := List.mem_singleton.mp hy
        exact complete_of_reaches hdry htrash hplaced hnever hreaches hfind hcovers

theorem covers_of_break (h : s.ExactEffect w outcomes) (hnever : s.NeverFails w outcomes)
    (hreaches : s.Reaches (.start w) outcomes front r o back) (hcrash : (s.act r o).crash ≠ none)
    (hfind : w.tree.find? l = some e) (hback : ∃ x ∈ back, Covers x l) :
    ∃ x ∈ front ++ [o], Covers x l := by
  obtain ⟨x, hx, hcovers⟩ := hback
  have hafter := (h.complete hnever l e hfind).mpr ⟨x, by simp [hreaches.split, hx], hcovers⟩
  have hlast : s.actAll (.start w) outcomes = s.act r o := by
    obtain ⟨f, hf⟩ := Option.ne_none_iff_exists'.mp hcrash
    rw [hreaches.rest rfl, actAll, hf]
    rfl
  rw [execute_world, hlast] at hafter
  obtain ⟨y, hy, htakes⟩ :=
    ((hreaches.act_stripped hdry hplaced).lost_iff l).mp (lost_iff.mpr ⟨⟨e, hfind⟩, hafter⟩)
  refine ⟨y, hy, covers_of_takes htrash (hplaced y ?_) htakes⟩
  rw [hreaches.split, List.append_cons]
  exact List.mem_append_left back hy

end

end Remover

namespace Evaluator
variable {ev : Evaluator} {w : World} {flags : Flags} {raws : List String}
  {outcomes : List Outcome} {s : Remover} {o : Outcome}

def NamesNoSlashedLink (ev : Evaluator) (w : World) (raws : List String) : Prop :=
  ∀ raw ∈ raws, Text.endsWith raw "/" = true →
    ∀ target, w.lstat (w.absolutePath ev.base raw).text ≠ .ok (.link target)

theorem placed_of_process (hproper : ev.base.Proper) (habs : ev.base.isAbsolute = true)
    (hslash : ev.NamesNoSlashedLink w raws) (h : ev.process w flags raws = .ok outcomes)
    (ho : o ∈ outcomes) : Remover.Placed w o := by
  intro target bypassed hallows
  obtain ⟨raw, hraw, hevaluate⟩ := exists_raw_of_process h ho
  obtain ⟨-, hresolve, -, hexists, -⟩ := permission_of_evaluate hevaluate hallows
  have hastray : ¬w.Astray ev.base raw := World.Bare.not_astray (hslash raw hraw)
  exact World.placed_of_resolve hproper habs hresolve hexists hastray

/-- A run without the trash takes away only what is covered. Its effect is exact just if it is
ended, if at all, at an outcome whose removal did not fail, and if that leaves out nothing that is
covered only by outcomes behind it. -/
theorem exactEffect_iff (hproper : ev.base.Proper) (habs : ev.base.isAbsolute = true)
    (hslash : ev.NamesNoSlashedLink w raws) (hprocess : ev.process w flags raws = .ok outcomes)
    (hdry : s.dryRun = false) (htrash : s.useTrash = false) :
    s.Confined w outcomes ∧ (s.ExactEffect w outcomes ↔
      ∀ front r o back, s.Reaches (.start w) outcomes front r o back → (s.act r o).crash ≠ none →
        ¬s.Fails r o ∧ (s.NeverFails w outcomes → ∀ l, w.tree.Occupied l →
          (∃ x ∈ back, Remover.Covers x l) → ∃ x ∈ front ++ [o], Remover.Covers x l)) := by
  have hplaced : ∀ o ∈ outcomes, Remover.Placed w o :=
    fun o ho => placed_of_process hproper habs hslash hprocess ho
  refine ⟨Remover.confined hdry htrash hplaced, fun h front r o back hreaches hcrash => ?_,
    Remover.exactEffect_of_breaks hdry htrash hplaced⟩
  refine ⟨fun hfails => hcrash (h.goesOn front r o back hreaches hfails), ?_⟩
  rintro hnever l ⟨e, hfind⟩ hback
  exact Remover.covers_of_break hdry htrash hplaced h hnever hreaches hcrash hfind hback

/-- The file `y` lies in a directory that cannot be changed. Its path holds what reads like a tag
once the path is printed twice in a line. -/
def bracketWorld : World where
  tree := ((FileTree.empty.put ["p", "]x["] (.dir ⟨false, true, false⟩)).put ["p", "]x[", "y"]
    (.file ByteArray.empty .nothing)).put ["p", "f"] (.file ByteArray.empty .nothing)
  cwd := "/p"
  env := [("SAFE_RM_CONFIG", "/c")]
  users := []
  ownHome := none
  git := none
  trashError := none

def bracketOutcome (raw : String) (l : Location) : Outcome :=
  ⟨raw, .judged ⟨raw, ⟨.single, l⟩, ⟨.single, l⟩, .file, none, false⟩ (.verdict (.allow false))⟩

/-- The line about the failed removal cannot be printed, so the run ends at it. -/
theorem not_exactEffect_bracket : ∃ outcomes,
    (free ⟨.single, ["p"]⟩).process bracketWorld ⟨false, false⟩ ["]x[/y", "f"] = .ok outcomes ∧
      (free ⟨.single, ["p"]⟩).NamesNoSlashedLink bracketWorld ["]x[/y", "f"] ∧
      ¬(Remover.mk ⟨.single, ["p"]⟩ false false).ExactEffect bracketWorld outcomes := by
  refine ⟨[bracketOutcome "]x[/y" ["p", "]x[", "y"], bracketOutcome "f" ["p", "f"]],
    World.toOption_eq_some.mp (by decide +kernel), ?_, fun h => ?_⟩
  · intro raw hraw hslashed
    rw [List.mem_cons, List.mem_singleton] at hraw
    obtain rfl | rfl := hraw <;> exact absurd hslashed (by decide)
  · have hfails : (Remover.mk ⟨.single, ["p"]⟩ false false).Fails (.start bracketWorld)
        (bracketOutcome "]x[/y" ["p", "]x[", "y"]) := ⟨_, _, rfl, by decide +kernel⟩
    have hgoes := h.goesOn [] (.start bracketWorld) _ _ ⟨rfl, rfl, rfl⟩ hfails
    exact absurd hgoes (by decide +kernel)

def lockedWorld : World where
  tree := ((FileTree.empty.put ["p", "d"] (.dir ⟨false, true, false⟩)).put ["p", "d", "x"]
    (.file ByteArray.empty .nothing)).put ["p", "f"] (.file ByteArray.empty .nothing)
  cwd := "/p"
  env := []
  users := []
  ownHome := none
  git := none
  trashError := none

/-- The removal of `x` fails, and the run goes on to the next argument. -/
theorem exactEffect_locked : ∃ outcomes,
    (free ⟨.single, ["p"]⟩).process lockedWorld ⟨false, false⟩ ["d/x", "f"] = .ok outcomes ∧
      (Remover.mk ⟨.single, ["p"]⟩ false false).ExactEffect lockedWorld outcomes ∧
      ∃ o ∈ outcomes, (Remover.mk ⟨.single, ["p"]⟩ false false).Fails (.start lockedWorld) o := by
  have hprocess : (free ⟨.single, ["p"]⟩).process lockedWorld ⟨false, false⟩ ["d/x", "f"] =
      .ok [bracketOutcome "d/x" ["p", "d", "x"], bracketOutcome "f" ["p", "f"]] :=
    World.toOption_eq_some.mp (by decide +kernel)
  have hproper : (free ⟨.single, ["p"]⟩).base.Proper := by
    unfold free Path.Proper
    decide
  have hslash : (free ⟨.single, ["p"]⟩).NamesNoSlashedLink lockedWorld ["d/x", "f"] := by
    intro raw hraw hslashed
    rw [List.mem_cons, List.mem_singleton] at hraw
    obtain rfl | rfl := hraw <;> exact absurd hslashed (by decide)
  have hfails : (Remover.mk ⟨.single, ["p"]⟩ false false).Fails (.start lockedWorld)
      (bracketOutcome "d/x" ["p", "d", "x"]) := ⟨_, _, rfl, by decide +kernel⟩
  have hfirst : ((Remover.mk ⟨.single, ["p"]⟩ false false).act (.start lockedWorld)
      (bracketOutcome "d/x" ["p", "d", "x"])).crash = none := by decide +kernel
  have heffect := exactEffect_iff (s := ⟨⟨.single, ["p"]⟩, false, false⟩) hproper rfl hslash
    hprocess rfl rfl
  refine ⟨_, hprocess, heffect.2.mpr fun front r o back hreaches hcrash => ?_, _,
    List.mem_cons_self, hfails⟩
  obtain ⟨hsplit, rfl, -⟩ := hreaches
  cases front with
  | nil =>
    obtain ⟨rfl, -⟩ := List.cons.inj hsplit
    exact absurd hfirst hcrash
  | cons y front =>
    obtain ⟨rfl, hrest⟩ := List.cons.inj hsplit
    cases front with
    | nil =>
      obtain ⟨rfl, -⟩ := List.cons.inj hrest
      rw [Remover.actAll_cons hfirst] at hcrash
      exact absurd (by decide +kernel) hcrash
    | cons z front =>
      have := congrArg List.length hrest
      simp at this

end Evaluator
end DeletionGuard
