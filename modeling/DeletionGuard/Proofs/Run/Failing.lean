import DeletionGuard.Proofs.FileTree.Growth
import DeletionGuard.Proofs.Run.Stripping
import DeletionGuard.Proofs.Target.Verifiable

/-!
How removals fail. Every failure is one that the system reports, unless a name holds the character
that no path can hold: a removal does not go deeper than the tree is, so its bound is never met.
-/
namespace DeletionGuard
open FileTree
variable {w w' : World} {t t' : FileTree} {p : Path} {text : String} {f : Failure} {ending : Ending}
  {here l : Location} {steps : List String} {d n : Nat}

theorem FileTree.Leads.of_partOf (hpart : t'.PartOf t) (h : t'.Leads here steps l) :
    t.Leads here steps l := by
  induction h with
  | stay here => exact .stay here
  | onto hturn _ ih => exact .onto (turn_of_partOf hpart hturn nofun) ih
  | link hturn _ _ ihtarget ihrest =>
    exact .link (turn_of_partOf hpart hturn nofun) ihtarget ihrest

namespace World

/-- A failure that the system reports, or one about a text that is no path at all. -/
def Reported (text : String) (f : Failure) : Prop :=
  f.isSystem = true ∨ f = .nulInPath ∧ Text.holds Text.nul text = true

theorem reported_of_locate (h : w.locate ending text = .error f) : Reported text f := by
  unfold locate at h
  split at h
  · rename_i hnul
    exact .inr ⟨(Except.error.inj h).symm, hnul⟩
  · obtain ⟨x, -, rfl⟩ := mapError_eq_error.mp h
    exact .inl rfl

theorem reported_of_bind {α : Type} {g : Location → Except Failure α}
    (hg : ∀ l f, g l = .error f → f.isSystem = true)
    (h : (w.locate ending text).bind g = .error f) : Reported text f := by
  obtain hlocate | ⟨l, -, h⟩ := bind_eq_error.mp h
  · exact reported_of_locate hlocate
  · exact .inl (hg l f h)

theorem reported_of_list (h : w.list text = .error f) : Reported text f := by
  refine reported_of_bind (fun l f h => ?_) h
  repeat' split at h
  all_goals first | exact Except.error.inj h ▸ rfl | exact absurd h nofun

theorem reported_of_unlink (h : w.unlink text = .error f) : Reported text f := by
  refine reported_of_bind (fun l f h => ?_) h
  repeat' split at h
  all_goals first | exact Except.error.inj h ▸ rfl | exact absurd h nofun

theorem reported_of_rmdir (h : w.rmdir text = .error f) : Reported text f := by
  refine reported_of_bind (fun l f h => ?_) h
  repeat' split at h
  all_goals first | exact Except.error.inj h ▸ rfl | exact absurd h nofun

theorem reported_of_discard (h : w.discard text = .error f) : Reported text f := by
  unfold discard at h
  split at h
  · exact .inl (Except.error.inj h ▸ rfl)
  · refine reported_of_bind (fun l f h => ?_) h
    split at h
    · exact Except.error.inj h ▸ rfl
    · split at h
      · rename_i hrefusal
        exact Except.error.inj h ▸ w.trash.system _ _ _ _ hrefusal
      · exact absurd h nofun

/-- A failure that the system reports, or one about a name that no path can hold, be it in the tree
or in a path. -/
def Foreseen (t : FileTree) (p : Path) (f : Failure) : Prop :=
  f.isSystem = true ∨ f = .nulInPath ∧ ¬(t.NamesClean ∧ p.Clean)

theorem Reported.foreseen (h : Reported p.text f) : Foreseen t p f := by
  obtain hsystem | ⟨hnul, hholds⟩ := h
  · exact .inl hsystem
  · refine .inr ⟨hnul, fun ⟨_, hclean⟩ => ?_⟩
    rw [hclean.not_holds_text] at hholds
    exact absurd hholds nofun

theorem Foreseen.of_child {s : String} {e : Entry} (h : Foreseen t (p.child s) f)
    (hfind : t.find? (l ++ [s]) = some e) : Foreseen t p f := by
  obtain hsystem | ⟨hnul, hunclean⟩ := h
  · exact .inl hsystem
  · refine .inr ⟨hnul, fun ⟨hnames, hclean⟩ => hunclean ⟨hnames, ?_⟩⟩
    exact clean_child hclean (hnames _ _ hfind s (by simp))

theorem failure_of_attempt {r : Except Failure World} (h : (w.attempt r).2 = some f) :
    r = .error f := by
  cases r with
  | ok w' => exact absurd h nofun
  | error f' => exact congrArg Except.error (Option.some.inj h)

theorem exists_failing {α : Type} {act : World → α → World × Option Failure} {xs : List α}
    {R : World → Prop} (hkeep : ∀ x ∈ xs, ∀ w, R w → R (act w x).1) (hw : R w)
    (h : (w.inTurn act xs).2 = some f) : ∃ x ∈ xs, ∃ w', R w' ∧ (act w' x).2 = some f := by
  induction xs generalizing w with
  | nil => exact absurd h nofun
  | cons x rest ih =>
    have hx := hkeep x List.mem_cons_self w hw
    rw [inTurn] at h
    split at h
    · rename_i w' heq
      rw [heq] at hx
      obtain ⟨y, hy, hfails⟩ := ih (fun y hy => hkeep y (List.mem_cons_of_mem x hy)) hx h
      exact ⟨y, List.mem_cons_of_mem x hy, hfails⟩
    · rename_i w' f' heq
      refine ⟨x, List.mem_cons_self, w, hw, ?_⟩
      rw [heq]
      exact h

theorem removeNested_partOf (hpart : w.tree.PartOf t) :
    (removeNested n w p).1.tree.PartOf t :=
  (removeNested_erases hpart).partOf.trans hpart

theorem leads_of_list {entries : List (String × Entry)} (hpart : w.tree.PartOf t)
    (hp : p.Proper) (habs : p.isAbsolute = true) (h : w.list p.text = .ok entries) :
    ∃ l, t.Leads [] p.parts l ∧ ∀ x ∈ entries, t.find? (l ++ [x.1]) = some x.2 := by
  obtain ⟨l, hl, h⟩ := bind_eq_ok.mp h
  refine ⟨l, (leads_of_walk (.inl rfl) (walk_of_locate hp habs hl)).of_partOf hpart, ?_⟩
  split at h
  · split at h
    · exact absurd h nofun
    · intro x hx
      rw [← Except.ok.inj h] at hx
      exact hpart _ _ (mem_children.mp hx)
  · exact absurd h nofun

theorem eq_of_leads_child {s : String} {e : Entry} {k : Location}
    (hlead : t.Leads [] p.parts l) (hfind : t.find? (l ++ [s]) = some e) (hdir : e.isDir = true)
    (hchild : t.Leads [] (p.child s).parts k) : k = l ++ [s] := by
  obtain ⟨m, hm, hs⟩ := leads_append.mp hchild
  obtain rfl := hlead.unique hm
  exact hs.eq_place (PartOf.refl t) ⟨e, hfind, isLink_of_isDir hdir⟩

/-- The bound of a recursive removal is met by no directory: there are more entries than a
directory is deep. -/
theorem foreseen_of_removeNested (hpart : w.tree.PartOf t) (hp : p.Proper)
    (habs : p.isAbsolute = true)
    (hdeep : ∀ k, t.Leads [] p.parts k → d ≤ k.length) (hbound : t.entries.length < n + d)
    (hpos : 0 < n) (h : (removeNested n w p).2 = some f) : Foreseen t p f := by
  induction n generalizing w p d f with
  | zero => omega
  | succ n ih =>
    rw [removeNested] at h
    split at h
    · rename_i f' hlist
      rw [← Option.some.inj h]
      exact (reported_of_list hlist).foreseen
    · rename_i entries hlist
      obtain ⟨l, hlead, hfound⟩ := leads_of_list hpart hp habs hlist
      dsimp only at h
      split at h
      · rename_i w' f' heq
        have hkeep : ∀ x ∈ entries, ∀ w : World, w.tree.PartOf t →
            ((if x.2.isDir then removeNested n w (p.child x.1)
              else w.attempt (w.unlink (p.child x.1).text)).1).tree.PartOf t := by
          intro x hx w hpart
          split
          · exact removeNested_partOf hpart
          · exact (attempt_erases fun w' => unlink_erases hpart).partOf.trans hpart
        obtain ⟨x, hx, w₁, hpart₁, hfails⟩ := exists_failing hkeep hpart (congrArg Prod.snd heq)
        rw [← Option.some.inj h]
        have hfind := hfound x hx
        have hname := isName_of_find? hfind x.1 (by simp)
        refine Foreseen.of_child ?_ hfind
        split at hfails
        · rename_i hdir
          have hdepth := length_le_of_find? hfind
          have hle := hdeep l hlead
          rw [List.length_append, List.length_singleton] at hdepth
          refine ih hpart₁ (hp.child (Path.isPart_of_isName hname)) habs (d := d + 1)
            (fun k hk => ?_) (by omega) (by omega) hfails
          rw [eq_of_leads_child hlead hfind hdir hk, List.length_append]
          simpa using hle
        · exact (reported_of_unlink (failure_of_attempt hfails)).foreseen
      · exact (reported_of_rmdir (failure_of_attempt h)).foreseen

theorem foreseen_of_removeTree (hp : p.Proper) (habs : p.isAbsolute = true)
    (h : (w.removeTree p).2 = some f) : Foreseen w.tree p f := by
  unfold removeTree at h
  split at h
  · exact .inl (Option.some.inj h ▸ rfl)
  · have hdeep : ∀ k, w.tree.Leads [] p.parts k → 0 ≤ k.length := fun k _ => Nat.zero_le _
    exact foreseen_of_removeNested (PartOf.refl _) hp habs hdeep (Nat.lt_succ_self _)
      (Nat.succ_pos _) h

end World

theorem Remover.foreseen_of_remove {s : Remover} {base : Path} {raw : String} {target : Target}
    (hpart : w.tree.PartOf w'.tree) (hresolve : w'.resolve base raw = .ok target)
    (hexists : target.exists? = true) (h : (s.remove w target).2 = some f) :
    f.isSystem = true ∨ f = .nulInPath ∧ ¬w'.tree.NamesClean := by
  have hforeseen : World.Foreseen w.tree target.resolved f := by
    unfold remove at h
    split at h
    · exact absurd h nofun
    · split at h
      · exact (World.reported_of_discard (World.failure_of_attempt h)).foreseen
      · split at h
        · rename_i hdir
          obtain ⟨hp, habs⟩ := World.proper_of_isDir hresolve hdir
          exact World.foreseen_of_removeTree hp habs h
        · exact (World.reported_of_unlink (World.failure_of_attempt h)).foreseen
  obtain hsystem | ⟨hnul, hunclean⟩ := hforeseen
  · exact .inl hsystem
  · refine .inr ⟨hnul, fun hnames => hunclean ⟨?_, ?_⟩⟩
    · exact fun l e hfind => hnames l e (hpart _ _ hfind)
    · exact World.clean_of_resolve hnames hresolve hexists

end DeletionGuard
