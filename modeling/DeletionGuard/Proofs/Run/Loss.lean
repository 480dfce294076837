import DeletionGuard.Proofs.Target.Sighting
import DeletionGuard.Removal

/-!
What a removal takes away. Every step of it takes one location with all below it; as long as a
target is where it was found, those locations are at or below its canonical path. So whatever is
lost in a run is lost for one outcome that allowed a removal.
-/
namespace DeletionGuard
open FileTree

namespace FileTree

/-- A tree comes from another by taking away locations of some kind, with all below them. -/
inductive Erases (P : Location → Prop) : FileTree → FileTree → Prop where
  | refl (t : FileTree) : Erases P t t
  | step {t t' : FileTree} {l : Location} (hl : P l) (hrest : Erases P (t.erase l) t') :
      Erases P t t'

namespace Erases
variable {P Q : Location → Prop} {t t' t'' : FileTree} {l m : Location} {e : Entry}

theorem single (hl : P l) : Erases P t (t.erase l) :=
  .step hl (.refl _)

theorem trans (h : Erases P t t') (h' : Erases P t' t'') : Erases P t t'' := by
  induction h with
  | refl t => exact h'
  | step hl _ ih => exact .step hl (ih h')

theorem mono (h : Erases P t t') (hPQ : ∀ l, P l → Q l) : Erases Q t t' := by
  induction h with
  | refl t => exact .refl t
  | step hl _ ih => exact .step (hPQ _ hl) ih

theorem partOf (h : Erases P t t') : t'.PartOf t := by
  induction h with
  | refl t => exact PartOf.refl t
  | step _ _ ih => exact ih.trans (PartOf.erase _ _)

theorem exists_above (h : Erases P t t') (hbefore : t.find? m = some e)
    (hafter : t'.find? m = none) : ∃ l, P l ∧ l <+: m := by
  induction h with
  | refl t =>
    rw [hbefore] at hafter
    exact absurd hafter nofun
  | @step t t' l hl _ ih =>
    by_cases hbelow : l <+: m
    · exact ⟨l, hl, hbelow⟩
    · refine ih ?_ hafter
      rw [find?_erase, if_neg fun h => hbelow h.2]
      exact hbefore

end Erases
end FileTree

namespace World
variable {t : FileTree} {w w' : World} {p : Path} {l : Location} {P : Location → Prop}

theorem prefix_of_locate_keep (hpart : w.tree.PartOf t) (hp : Rooted t.Occupied p)
    (h : w.locate .keep p.text = .ok l) : p.parts <+: l := by
  obtain ⟨e, he⟩ := hp.2
  have hl := locate_keep hpart hp.proper hp.isAbsolute (plain_of_find? he) h
  exact hl ▸ List.prefix_refl p.parts

theorem unlink_erases (hpart : w.tree.PartOf t) (h : w.unlink p.text = .ok w') :
    Erases (fun l => Rooted t.Occupied p → p.parts <+: l) w.tree w'.tree := by
  obtain ⟨l, hl, h⟩ := bind_eq_ok.mp h
  split at h
  · exact absurd h nofun
  · split at h
    · exact absurd h nofun
    · split at h
      · exact absurd h nofun
      · obtain rfl := Except.ok.inj h
        exact .single fun hp => prefix_of_locate_keep hpart hp hl

theorem rmdir_erases (hpart : w.tree.PartOf t) (h : w.rmdir p.text = .ok w') :
    Erases (fun l => Rooted t.Occupied p → p.parts <+: l) w.tree w'.tree := by
  obtain ⟨l, hl, h⟩ := bind_eq_ok.mp h
  split at h
  · exact absurd h nofun
  · split at h
    · exact absurd h nofun
    · split at h
      · exact absurd h nofun
      · split at h
        · exact absurd h nofun
        · obtain rfl := Except.ok.inj h
          exact .single fun hp => prefix_of_locate_keep hpart hp hl

theorem discard_erases (hpart : w.tree.PartOf t) (h : w.discard p.text = .ok w') :
    Erases (fun l => Rooted t.Occupied p → p.parts <+: l) w.tree w'.tree := by
  unfold discard at h
  split at h
  · exact absurd h nofun
  · obtain ⟨l, hl, h⟩ := bind_eq_ok.mp h
    split at h
    · exact absurd h nofun
    · split at h
      · exact absurd h nofun
      · obtain rfl := Except.ok.inj h
        exact .single fun hp => prefix_of_locate_keep hpart hp hl

theorem attempt_erases {r : Except Failure World} (h : ∀ w', r = .ok w' → Erases P w.tree w'.tree) :
    Erases P w.tree (w.attempt r).1.tree := by
  cases r with
  | ok w' => exact h w' rfl
  | error f => exact .refl _

theorem inTurn_erases {α : Type} {act : World → α → World × Option Failure} {xs : List α}
    (hact : ∀ x ∈ xs, ∀ w, w.tree.PartOf t → Erases P w.tree (act w x).1.tree)
    (hpart : w.tree.PartOf t) : Erases P w.tree (w.inTurn act xs).1.tree := by
  induction xs generalizing w with
  | nil => exact .refl _
  | cons x rest ih =>
    have hx := hact x List.mem_cons_self w hpart
    rw [inTurn]
    split
    · rename_i w' heq
      rw [heq] at hx
      exact hx.trans (ih (fun y hy => hact y (List.mem_cons_of_mem x hy)) (hx.partOf.trans hpart))
    · rename_i w' f heq
      rwa [heq] at hx

theorem prefix_of_child {s : String} (h : (p.child s).parts <+: l) : p.parts <+: l :=
  (List.prefix_append _ _).trans h

theorem removeNested_erases {n : Nat} (hpart : w.tree.PartOf t) :
    Erases (fun l => Rooted t.Solid p → p.parts <+: l) w.tree (removeNested n w p).1.tree := by
  induction n generalizing w p with
  | zero => exact .refl _
  | succ n ih =>
    rw [removeNested]
    split
    · exact .refl _
    · rename_i entries hlist
      -- entries were listed before any was removed; what is still there is where it was
      have hall (e : String × Entry) (he : e ∈ entries) (w' : World) (hpart' : w'.tree.PartOf t) :
          Erases (fun l => Rooted t.Solid p → p.parts <+: l) w'.tree
            (if e.2.isDir then removeNested n w' (p.child e.1)
              else w'.attempt (w'.unlink (p.child e.1).text)).1.tree := by
        split
        · rename_i hdir
          refine (ih hpart').mono fun l hl hp => ?_
          obtain ⟨hroot, hfind⟩ := find?_child_of_list hpart hp hlist he
          exact prefix_of_child (hl ⟨hroot, e.2, hfind, isLink_of_isDir hdir⟩)
        · refine attempt_erases fun w'' hunlink => ?_
          refine (unlink_erases hpart' hunlink).mono fun l hl hp => ?_
          obtain ⟨hroot, hfind⟩ := find?_child_of_list hpart hp hlist he
          exact prefix_of_child (hl ⟨hroot, e.2, hfind⟩)
      have hturn := inTurn_erases hall hpart
      dsimp only
      split
      · rename_i w' f heq
        rwa [heq] at hturn
      · rename_i w' heq
        rw [heq] at hturn
        refine hturn.trans (attempt_erases fun w'' hrmdir => ?_)
        refine (rmdir_erases (hturn.partOf.trans hpart) hrmdir).mono fun l hl hp => ?_
        exact hl hp.occupied

theorem removeTree_erases (hpart : w.tree.PartOf t) :
    Erases (fun l => Rooted t.Solid p → p.parts <+: l) w.tree (w.removeTree p).1.tree := by
  unfold removeTree
  split
  · exact .refl _
  · exact removeNested_erases hpart

end World

namespace Remover
variable {t : FileTree} {w : World} {s : Remover} {target : Target} {r : Removals} {o : Outcome}
  {outcomes : List Outcome} {l : Location} {e : Entry}

theorem remove_erases (hpart : w.tree.PartOf t) :
    Erases (fun l => target.Placed t → target.resolved.parts <+: l) w.tree
      (s.remove w target).1.tree := by
  unfold remove
  split
  · exact .refl _
  · split
    · refine World.attempt_erases fun w' hdiscard => ?_
      exact (World.discard_erases hpart hdiscard).mono fun l hl hplaced => hl hplaced.occupied
    · split
      · rename_i hdir
        exact (World.removeTree_erases hpart).mono fun l hl hplaced => hl (hplaced.solid hdir)
      · refine World.attempt_erases fun w' hunlink => ?_
        exact (World.unlink_erases hpart hunlink).mono fun l hl hplaced => hl hplaced.occupied

def Allows (o : Outcome) (target : Target) (bypassed : Bool) : Prop :=
  o.finding = .judged target (.verdict (.allow bypassed))

theorem exists_allows_of_allowed (h : o.allowed = true) :
    ∃ target bypassed, Allows o target bypassed := by
  obtain ⟨raw, finding⟩ := o
  match finding with
  | .judged target (.verdict (.allow bypassed)) => exact ⟨target, bypassed, rfl⟩
  | .unverifiable _ | .judged _ (.verdict (.block _)) | .judged _ (.error _) | .judged _ .skipped =>
    exact absurd h nofun

@[simp] theorem report_world (r : Removals) (item : Except Failure Console.Item)
    (add : Tally → Tally) : (r.report item add).world = r.world := by
  cases item <;> rfl

@[simp] theorem print_world (r : Removals) (item : Except Failure Console.Item) :
    (r.print item).world = r.world := by
  cases item <;> rfl

theorem act_erases (hpart : r.world.tree.PartOf t) :
    Erases (fun l => ∃ target bypassed, Allows o target bypassed ∧
      (target.Placed t → target.resolved.parts <+: l)) r.world.tree (s.act r o).world.tree := by
  obtain ⟨raw, finding⟩ := o
  cases finding with
  | unverifiable b =>
    rw [act, report_world]
    exact .refl _
  | judged target answer =>
    cases answer with
    | skipped => exact .refl _
    | error e =>
      rw [act, report_world]
      exact .refl _
    | verdict v =>
      cases v with
      | block b =>
        rw [act, report_world]
        exact .refl _
      | allow bypassed =>
        have hworld : (s.act r ⟨raw, .judged target (.verdict (.allow bypassed))⟩).world =
            (s.remove r.world target).1 := by
          unfold act
          dsimp only
          split
          · rw [print_world]
          · split
            · rw [report_world]
            · rfl
        rw [hworld]
        exact (remove_erases hpart).mono fun l hl => ⟨target, bypassed, rfl, hl⟩

/-- A location is lost for an outcome of a run when that outcome is acted on. -/
inductive Loses (s : Remover) : Removals → List Outcome → Outcome → Location → Prop where
  | now {r : Removals} {o : Outcome} {rest : List Outcome} {l : Location} {e : Entry}
      (hbefore : r.world.tree.find? l = some e) (hafter : (s.act r o).world.tree.find? l = none) :
      Loses s r (o :: rest) o l
  | later {r : Removals} {o o' : Outcome} {rest : List Outcome} {l : Location}
      (hgo : (s.act r o').crash = none) (hrest : Loses s (s.act r o') rest o l) :
      Loses s r (o' :: rest) o l

theorem actAll_partOf : (s.actAll r outcomes).world.tree.PartOf r.world.tree := by
  induction outcomes generalizing r with
  | nil => exact PartOf.refl _
  | cons o rest ih =>
    have hact : (s.act r o).world.tree.PartOf r.world.tree := (act_erases (PartOf.refl _)).partOf
    rw [actAll]
    split
    · exact hact
    · exact ih.trans hact

theorem exists_loses (hbefore : r.world.tree.find? l = some e)
    (hafter : (s.actAll r outcomes).world.tree.find? l = none) :
    ∃ o, s.Loses r outcomes o l := by
  induction outcomes generalizing r e with
  | nil =>
    rw [actAll, hbefore] at hafter
    exact absurd hafter nofun
  | cons o rest ih =>
    -- either this outcome takes it, or it is still there for those that follow
    cases hnow : (s.act r o).world.tree.find? l with
    | none => exact ⟨o, .now hbefore hnow⟩
    | some e' =>
      rw [actAll] at hafter
      split at hafter
      · rw [hnow] at hafter
        exact absurd hafter nofun
      · rename_i hgo
        obtain ⟨o', ho'⟩ := ih hnow hafter
        exact ⟨o', .later (by simpa using hgo) ho'⟩

theorem Loses.exists_allows (h : s.Loses r outcomes o l) (hpart : r.world.tree.PartOf t) :
    o ∈ outcomes ∧ ∃ target bypassed, Allows o target bypassed ∧
      (target.Placed t → target.resolved.parts <+: l) := by
  induction h with
  | now hbefore hafter =>
    refine ⟨List.mem_cons_self, ?_⟩
    obtain ⟨k, ⟨target, bypassed, hallows, hk⟩, hbelow⟩ :=
      (act_erases hpart).exists_above hbefore hafter
    exact ⟨target, bypassed, hallows, fun hplaced => (hk hplaced).trans hbelow⟩
  | later _ _ ih =>
    obtain ⟨hmem, hallows⟩ := ih ((act_erases (PartOf.refl _)).partOf.trans hpart)
    exact ⟨List.mem_cons_of_mem _ hmem, hallows⟩

theorem Loses.exists_find? (h : s.Loses r outcomes o l) (hpart : r.world.tree.PartOf t) :
    ∃ e, t.find? l = some e := by
  induction h with
  | now hbefore _ => exact ⟨_, hpart _ _ hbefore⟩
  | later _ _ ih => exact ih ((act_erases (PartOf.refl _)).partOf.trans hpart)

theorem Loses.gone (h : s.Loses r outcomes o l) :
    (s.actAll r outcomes).world.tree.find? l = none := by
  have hstays {t t' : FileTree} (hpart : t'.PartOf t) (hgone : t.find? l = none) :
      t'.find? l = none := by
    cases hfind : t'.find? l with
    | none => rfl
    | some e =>
      rw [hpart l e hfind] at hgone
      exact absurd hgone nofun
  induction h with
  | now _ hafter =>
    rw [actAll]
    split
    · exact hafter
    · exact hstays actAll_partOf hafter
  | later hgo _ ih =>
    rw [actAll, hgo]
    exact ih hstays

theorem execute_world (s : Remover) (w : World) (outcomes : List Outcome) :
    (s.execute w outcomes).world = (s.actAll (.start w) outcomes).world := by
  unfold execute
  dsimp only
  split
  · exact report_world _ _ _
  · rfl

end Remover
end DeletionGuard
