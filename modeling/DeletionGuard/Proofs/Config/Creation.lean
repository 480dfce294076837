import DeletionGuard.Proofs.Run.Making
import DeletionGuard.Proofs.Run.Printing

/-!
What is written for a start. Whether the configuration path leads to anything is asked before the
directories above it are made, and the file is written after. Without `..` in the path the new
directories hold nothing, so the file is new; with it they may lead back to a file that was there.
-/
namespace DeletionGuard
open FileTree

namespace Transcript

def SaysCreated (t : Transcript) : Prop :=
  ∃ text, .line text ∈ t.out ∧ Text.startsWith text "Created config file:" = true

end Transcript

namespace World
variable {w w' w₁ : World} {p q : Path} {n : Nat} {l d : Location} {e : Entry} {f? : Option Failure}

theorem ensureDirectory_cases (h : w.ensureDirectory q = (w', f?)) :
    w.mkdir q.text = .ok w' ∧ f? = none ∨
      w' = w ∧ (f? = none → w.isDir q.text = .ok true ∧
        ∀ text, w.mkdir q.text ≠ .error (.call .noEntry text)) := by
  unfold ensureDirectory at h
  split at h
  · rename_i hmkdir
    obtain ⟨rfl, rfl⟩ := Prod.mk.inj h
    exact .inl ⟨hmkdir, rfl⟩
  · rename_i f hmkdir
    refine .inr ?_
    split at h
    · obtain ⟨rfl, rfl⟩ := Prod.mk.inj h
      exact ⟨rfl, nofun⟩
    · rename_i hf
      split at h <;> obtain ⟨rfl, rfl⟩ := Prod.mk.inj h
      · rename_i hdir
        refine ⟨rfl, fun _ => ⟨hdir, fun text h => hf ?_⟩⟩
        rw [Except.error.inj (hmkdir.symm.trans h)]
        rfl
      · exact ⟨rfl, nofun⟩
      · exact ⟨rfl, nofun⟩

theorem ensureDirectory_grows (h : w.ensureDirectory q = (w', f?)) : Grows w w' := by
  obtain ⟨hmkdir, -⟩ | ⟨rfl, -⟩ := ensureDirectory_cases h
  · exact mkdir_grows hmkdir
  · exact .refl w'

theorem ensureNested_grows (h : ensureNested n w q = (w', f?)) : Grows w w' := by
  induction n generalizing q w' f? with
  | zero => exact ensureDirectory_grows h
  | succ n ih =>
    rw [ensureNested] at h
    split at h
    · split at h
      · rename_i hparent
        obtain ⟨rfl, -⟩ := Prod.mk.inj h
        exact ih hparent
      · rename_i hparent
        exact (ih hparent).trans (ensureDirectory_grows h)
    · exact ensureDirectory_grows h

def Fresh (w w' : World) (q : Path) : Prop :=
  ∃ d, w'.locate .follow q.text = .ok d ∧ w.tree.find? d = none ∧
    ∀ s, w'.tree.find? (d ++ [s]) = none

theorem fresh_of_mkdir (h : w.mkdir q.text = .ok w') : Fresh w w' q := by
  obtain ⟨l, hl, hvacant, rfl⟩ := mkdir_eq_ok h
  have hdir := hvacant.find?_graft (.dir .nothing) l
  rw [if_pos rfl] at hdir
  refine ⟨l, ?_, hvacant.free, fun s => ?_⟩
  · exact locate_of_partOf (hvacant.partOf_graft _) rfl (by decide : Ending.create ≠ .keep)
      ⟨_, hdir, rfl⟩ hl
  · rw [hvacant.find?_graft, if_neg (by simp)]
    exact find?_below_of_free hvacant.free (List.prefix_append l [s])

theorem Fresh.of_grows (hgrows : Grows w w₁) (h : Fresh w₁ w' q) : Fresh w w' q := by
  obtain ⟨d, hd, hfree, hempty⟩ := h
  refine ⟨d, hd, ?_, hempty⟩
  cases hfind : w.tree.find? d with
  | none => rfl
  | some e =>
    rw [hgrows.tree.kept _ _ hfind] at hfree
    exact absurd hfree nofun

theorem Fresh.locate {ending : Ending} (h : Fresh w w' q.parent) (hq : q.Proper)
    (hup : ∀ s ∈ q.parts, s ≠ "..") (hne : q.parts ≠ [])
    (hl : w'.locate ending q.text = .ok l) : ending = .create ∧ w'.tree.find? l = none := by
  obtain ⟨d, hd, -, hempty⟩ := h
  rw [← Path.child_parent_name hne] at hq hl
  have hname : q.name ≠ ".." := hup _ (Path.name_eq_getLast hne ▸ List.getLast_mem hne)
  obtain ⟨hcreate, rfl⟩ := locate_child hq hname hd (hempty _) hl
  exact ⟨hcreate, hempty _⟩

theorem fresh_of_ensureDirectory (h : w.ensureDirectory q = (w', none)) :
    w' = w ∨ Fresh w w' q := by
  obtain ⟨hmkdir, -⟩ | ⟨rfl, -⟩ := ensureDirectory_cases h
  · exact .inr (fresh_of_mkdir hmkdir)
  · exact .inl rfl

theorem fresh_of_ensureNested (hq : q.Proper) (hup : ∀ s ∈ q.parts, s ≠ "..")
    (hn : n ≤ q.parts.length) (h : ensureNested n w q = (w', none)) :
    w' = w ∨ Fresh w w' q := by
  induction n generalizing q w' with
  | zero => exact fresh_of_ensureDirectory h
  | succ n ih =>
    rw [ensureNested] at h
    split at h
    · rename_i text hmissing
      split at h
      · exact absurd (Prod.mk.inj h).2 (Option.some_ne_none _)
      · rename_i w₁ hparent
        have hne : q.parts ≠ [] := List.ne_nil_of_length_pos (by omega)
        have hlength : n ≤ q.parent.parts.length := by
          rw [Path.parent, List.length_dropLast]
          omega
        have hgrows := ensureNested_grows hparent
        obtain ⟨hmkdir, -⟩ | ⟨rfl, hseen⟩ := ensureDirectory_cases h
        · exact .inr ((fresh_of_mkdir hmkdir).of_grows hgrows)
        · obtain ⟨hdir, hthere⟩ := hseen rfl
          obtain rfl | hfresh := ih hq.parent
            (fun s hs => hup s (List.dropLast_subset _ hs)) hlength hparent
          · exact absurd hmissing (hthere text)
          · obtain ⟨l, hl⟩ : ∃ l, w'.locate .follow q.text = .ok l := by
              unfold isDir test at hdir
              split at hdir
              · rename_i e hstat
                obtain ⟨l, hl, -⟩ := entryAt_eq_ok.mp hstat
                exact ⟨l, hl⟩
              · split at hdir <;> cases hdir
            exact absurd (hfresh.locate hq hup hne hl).1 (by decide)
    · exact fresh_of_ensureDirectory h

def Creates (w : World) (p : Path) : Prop :=
  w.exists? p.text = .ok false ∧ (w.writeNested p Config.template).2 = none

/-- A run without leave to overwrite leaves what existed as it was, adds directories and at most one
file, and where it reports a file, the path leads to just what is written for a start. -/
structure InitSound (w : World) : Prop where
  kept : w.tree.PartOf (w.runInit false).world.tree
  added : ∃ file, ∀ l e, (w.runInit false).world.tree.find? l = some e →
    w.tree.find? l = some e ∨ e = .dir .nothing ∨
      l = file ∧ e = .file Config.template.toUTF8 .nothing
  reported : ∀ p, w.configPath = .ok p → w.Creates p →
    ∃ deny, (w.runInit false).world.stat p.text = .ok (.file Config.template.toUTF8 deny)

/-- A path leads to nothing, but with the directories above it made it leads to an entry that was
there before. The entry is taken over and holds something else than what is written. -/
structure ComesBack (w : World) (p : Path) : Prop where
  absent : w.exists? p.text = .ok false
  back : ∃ w₁ w₂ l e, w.ensureDirectories p.parent = (w₁, none) ∧
    w₁.locate .create p.text = .ok l ∧ w.tree.find? l = some e ∧
    w₁.write p.text Config.template.toUTF8 = .ok w₂ ∧
    ∀ deny, e ≠ .file Config.template.toUTF8 deny

theorem runInit_world (hp : w.configPath = .ok p) (habsent : w.exists? p.text = .ok false) :
    (w.runInit false).world = (w.writeNested p Config.template).1 := by
  simp only [runInit, hp, habsent, Bool.false_and, Bool.false_eq_true, if_false]
  cases w.writeNested p Config.template with
  | mk w' f? =>
    cases f? with
    | none => exact Transcript.print_world _ _
    | some f =>
      simp only
      split
      · exact Transcript.complain_world _ _
      · rfl

theorem runInit_world_eq_self (h : ∀ p, w.configPath = .ok p → w.exists? p.text ≠ .ok false) :
    (w.runInit false).world = w := by
  cases hp : w.configPath with
  | error f => simp only [runInit, hp, Transcript.crash_world, Transcript.start_world]
  | ok p =>
    cases hfound : w.exists? p.text with
    | error f => simp only [runInit, hp, hfound, Transcript.complain_world, Transcript.start_world]
    | ok found =>
      cases found with
      | false => exact absurd hfound (h p hp)
      | true =>
        simp only [runInit, hp, hfound, Bool.not_false, Bool.and_self, if_true]
        exact Transcript.print_world _ _

theorem writeNested_cases (p : Path) (text : String) :
    (∃ w₁ f?, w.ensureDirectories p.parent = (w₁, f?) ∧ (w.writeNested p text).1 = w₁ ∧
      (w.writeNested p text).2 ≠ none) ∨
    ∃ w₁ w₂, w.ensureDirectories p.parent = (w₁, none) ∧ w₁.write p.text text.toUTF8 = .ok w₂ ∧
      w.writeNested p text = (w₂, none) := by
  unfold writeNested
  split
  · rename_i w₁ f heq
    exact .inl ⟨w₁, some f, heq, rfl, nofun⟩
  · rename_i w₁ heq
    cases hwrite : w₁.write p.text text.toUTF8 with
    | ok w₂ => exact .inr ⟨w₁, w₂, heq, hwrite, rfl⟩
    | error f => exact .inl ⟨w₁, none, heq, rfl, nofun⟩

theorem writeNested_of_write {w₁ w₂ : World} {text : String}
    (hmade : w.ensureDirectories p.parent = (w₁, none))
    (hwrite : w₁.write p.text text.toUTF8 = .ok w₂) : w.writeNested p text = (w₂, none) := by
  simp only [writeNested, hmade, hwrite]

theorem Grows.find?_old (h : Grows w w₁) (hfind : w₁.tree.find? l = some e)
    (hfile : e.isDir = false) : w.tree.find? l = some e := by
  obtain hold | rfl := h.tree.added l e hfind
  · exact hold
  · exact absurd hfile nofun

theorem template_of_lands {w₂ : World} (habsent : w.exists? p.text = .ok false)
    (hback : ¬w.ComesBack p) (hmade : w.ensureDirectories p.parent = (w₁, none))
    (hl : w₁.locate .create p.text = .ok l)
    (hwrite : w₁.write p.text Config.template.toUTF8 = .ok w₂)
    (hlands : w₁.Lands l Config.template.toUTF8 e) :
    ∃ deny, e = .file Config.template.toUTF8 deny ∧
      (w₁.tree.find? l = some e ∧ w.tree.find? l = some e ∨
        w₁.tree.find? l = none ∧ deny = .nothing) := by
  cases hlands with
  | new hvacant => exact ⟨.nothing, rfl, .inr ⟨hvacant.free, rfl⟩⟩
  | @into e hfind hplain hfile =>
    have hbefore := (ensureNested_grows hmade).find?_old hfind hfile
    have hsame : ∃ deny, e = .file Config.template.toUTF8 deny := by
      refine Classical.byContradiction fun hother => hback ⟨habsent, w₁, w₂, l, e, ?_⟩
      exact ⟨hmade, hl, hbefore, hwrite, fun deny he => hother ⟨deny, he⟩⟩
    obtain ⟨deny, rfl⟩ := hsame
    exact ⟨deny, rfl, .inl ⟨hfind, hbefore⟩⟩

theorem initSound_of_failed (hp : w.configPath = .ok p) (hgrows : Grows w w₁)
    (hworld : (w.runInit false).world = w₁) (hfails : ¬w.Creates p) : w.InitSound := by
  refine ⟨hworld ▸ hgrows.tree.kept, ⟨[], fun l e hfind => ?_⟩, fun q hq hcreates => ?_⟩
  · rw [hworld] at hfind
    exact (hgrows.tree.added l e hfind).imp_right .inl
  · exact absurd (Except.ok.inj (hp.symm.trans hq) ▸ hcreates) hfails

theorem initSound_of_written {w₂ : World} (hp : w.configPath = .ok p)
    (habsent : w.exists? p.text = .ok false) (hback : ¬w.ComesBack p)
    (hmade : w.ensureDirectories p.parent = (w₁, none))
    (hwrite : w₁.write p.text Config.template.toUTF8 = .ok w₂)
    (hworld : (w.runInit false).world = w₂) : w.InitSound := by
  have hgrows : Grows w w₁ := ensureNested_grows hmade
  obtain ⟨l, e, hl, hlands, hcwd, hfind₂⟩ := write_eq_ok hwrite
  obtain ⟨deny, rfl, hold⟩ := template_of_lands habsent hback hmade hl hwrite hlands
  have hpart : w₁.tree.PartOf w₂.tree := by
    intro m e' hfind
    rw [hfind₂]
    split
    · rename_i hm
      obtain ⟨hthere, -⟩ | ⟨hfree, -⟩ := hold
      · rw [← hthere, ← hm, hfind]
      · rw [hm, hfree] at hfind
        exact absurd hfind nofun
    · exact hfind
  refine ⟨hworld ▸ hgrows.tree.kept.trans hpart, ⟨l, fun m e' hfind => ?_⟩, fun q hq _ => ?_⟩
  · rw [hworld, hfind₂] at hfind
    split at hfind
    · rename_i hm
      obtain rfl := Option.some.inj hfind
      obtain ⟨-, hbefore⟩ | ⟨-, rfl⟩ := hold
      · exact .inl (hm ▸ hbefore)
      · exact .inr (.inr ⟨hm, rfl⟩)
    · exact (hgrows.tree.added m e' hfind).imp_right .inl
  · obtain rfl := Except.ok.inj (hp.symm.trans hq)
    have hfind := hfind₂ l
    rw [if_pos rfl] at hfind
    exact ⟨deny, hworld ▸ stat_of_partOf hpart hcwd hfind rfl hl⟩

theorem initSound_of_not_comesBack (h : ¬∃ p, w.configPath = .ok p ∧ w.ComesBack p) :
    w.InitSound := by
  by_cases hruns : ∃ p, w.configPath = .ok p ∧ w.exists? p.text = .ok false
  · obtain ⟨p, hp, habsent⟩ := hruns
    have hworld := runInit_world hp habsent
    obtain ⟨w₁, f?, hmade, hleft, hfails⟩ | ⟨w₁, w₂, hmade, hwrite, hleft⟩ :=
      writeNested_cases p Config.template
    · exact initSound_of_failed hp (ensureNested_grows hmade) (hworld.trans hleft)
        fun hcreates => hfails hcreates.2
    · rw [hleft] at hworld
      exact initSound_of_written hp habsent (fun hback => h ⟨p, hp, hback⟩) hmade hwrite hworld
  · have hworld : (w.runInit false).world = w :=
      runInit_world_eq_self fun p hp habsent => hruns ⟨p, hp, habsent⟩
    refine ⟨hworld.symm ▸ PartOf.refl _, ⟨[], fun l e hfind => .inl (hworld ▸ hfind)⟩, ?_⟩
    exact fun p hp hcreates => absurd ⟨p, hp, hcreates.1⟩ hruns

theorem not_initSound_of_comesBack (hp : w.configPath = .ok p) (h : w.ComesBack p) :
    ¬w.InitSound := by
  intro hsound
  obtain ⟨habsent, w₁, w₂, l, e, hmade, hl, hfind, hwrite, hother⟩ := h
  have hworld := runInit_world hp habsent
  rw [writeNested_of_write hmade hwrite] at hworld
  have hgrows : Grows w w₁ := ensureNested_grows hmade
  obtain ⟨l', e', hl', hlands, hcwd, hfind₂⟩ := write_eq_ok hwrite
  obtain rfl : l' = l := Except.ok.inj (hl'.symm.trans hl)
  have hthere := hgrows.tree.kept _ _ hfind
  have hafter := hfind₂ l'
  rw [if_pos rfl] at hafter
  cases hlands with
  | new hvacant =>
    rw [hvacant.free] at hthere
    exact absurd hthere nofun
  | @into e₁ hfind₁ hplain hfile =>
    obtain rfl : e₁ = e := Option.some.inj (hfind₁.symm.trans hthere)
    cases e₁ with
    | dir deny => exact absurd hfile nofun
    | link target => exact absurd hplain nofun
    | file data deny =>
      have hkept := hsound.kept _ _ hfind
      rw [hworld, hafter] at hkept
      exact hother deny (Option.some.inj hkept).symm
    | fifo deny =>
      have hpart : w₁.tree.PartOf w₂.tree := by
        intro m e' he'
        rw [hfind₂]
        split
        · rename_i hm
          exact hfind₁.symm.trans (hm ▸ he')
        · exact he'
      have hcreates : w.Creates p := ⟨habsent, by rw [writeNested_of_write hmade hwrite]⟩
      obtain ⟨deny', hstat⟩ := hsound.reported p hp hcreates
      rw [hworld, stat_of_partOf hpart hcwd hafter rfl hl] at hstat
      exact absurd (Except.ok.inj hstat) nofun

theorem not_comesBack (hp : p.Proper) (hup : ∀ s ∈ p.parts, s ≠ "..") : ¬w.ComesBack p := by
  rintro ⟨habsent, w₁, w₂, l, e, hmade, hl, hfind, hwrite, -⟩
  have hgrows : Grows w w₁ := ensureNested_grows hmade
  have hthere := hgrows.tree.kept _ _ hfind
  obtain ⟨l', e', hl', hlands, -⟩ := write_eq_ok hwrite
  obtain rfl : l' = l := Except.ok.inj (hl'.symm.trans hl)
  have hplain : e.isLink = false := by
    cases hlands with
    | new hvacant =>
      rw [hvacant.free] at hthere
      exact absurd hthere nofun
    | into hfind₁ hplain =>
      exact Option.some.inj (hfind₁.symm.trans hthere) ▸ hplain
  obtain rfl | hfresh := fresh_of_ensureNested hp.parent
    (fun s hs => hup s (List.dropLast_subset _ hs)) (Nat.le_refl _) hmade
  · rw [exists?, test, stat_of_partOf (.refl _) rfl hthere hplain hl] at habsent
    exact absurd habsent nofun
  · by_cases hnil : p.parts = []
    · obtain ⟨d, hd, hfree, -⟩ := hfresh
      have hsame : p.parent = p := by
        cases p
        simp only at hnil
        rw [hnil]
        rfl
      rw [hsame] at hd
      have hfollow := locate_of_partOf (.refl _) rfl (by decide : Ending.create ≠ .keep)
        ⟨e, hthere, hplain⟩ hl
      rw [Except.ok.inj (hd.symm.trans hfollow), hfind] at hfree
      exact absurd hfree nofun
    · rw [(hfresh.locate hp hup hnil hl).2] at hthere
      exact absurd hthere nofun

theorem proper_of_configHome (hp : w.configHome = .ok p) : p.Proper := by
  unfold configHome at hp
  split at hp
  · exact Except.ok.inj hp ▸ Path.proper_ofString _
  · obtain ⟨q, hq, rfl⟩ := map_eq_ok.mp hp
    refine Path.Proper.child ?_ (by decide)
    simp only [World.home] at hq
    split at hq
    · exact absurd hq nofun
    · exact Except.ok.inj hq ▸ Path.proper_ofString _

theorem proper_of_configPath (hp : w.configPath = .ok p) : p.Proper := by
  unfold configPath at hp
  split at hp
  · exact Except.ok.inj hp ▸ Path.proper_ofString _
  · obtain ⟨home, h, rfl⟩ := map_eq_ok.mp hp
    exact ((proper_of_configHome h).child (by decide)).child (by decide)

theorem not_says_of_found {t : Transcript} {text : String} (ht : t.out = [])
    (h : .line text ∈ (t.print
      [Console.warningLine w.screen ("Config file already exists: " ++ p.text),
       Console.line w.screen (Console.styled "dim" "Use --force to overwrite")]).out) :
    Text.startsWith text "Created config file:" = false := by
  have hitem := (Transcript.mem_out_of_print h).resolve_left (by simp [ht])
  obtain hitem | hitem := List.mem_cons.mp hitem
  · have hfound : ("Config file already exists: " ++ p.text).toList =
        ['C', 'o'] ++ ("nfig file already exists: " ++ p.text).toList := by
      rw [String.toList_append, String.toList_append]
      rfl
    have hshown : ∀ c ∈ ['C', 'o'], Markup.IsShown c :=
      List.forall_mem_cons.mpr ⟨by decide, List.forall_mem_singleton.mpr (by decide)⟩
    obtain ⟨tail, htail⟩ :=
      Markup.escapeChars_append ("nfig file already exists: " ++ p.text).toList hshown
    have hescaped : (Markup.escape ("Config file already exists: " ++ p.text)).toList =
        ['C', 'o'] ++ tail := by
      rw [Markup.escape, String.toList_ofList, hfound, htail]
    obtain ⟨text', tail', heq, htext⟩ :=
      Console.line_styled ⟨'y', "ellow".toList, by decide⟩ hshown hescaped hitem.symm
    obtain rfl := Console.Item.line.inj heq
    rw [Text.startsWith, htext]
    rfl
  · have hshown : ∀ c ∈ ['U'], Markup.IsShown c :=
      List.forall_mem_singleton.mpr (by decide)
    have hhint : "Use --force to overwrite".toList = ['U'] ++ "se --force to overwrite".toList := by
      decide +kernel
    obtain ⟨text', tail', heq, htext⟩ := Console.line_styled ⟨'d', "im".toList, by decide⟩ hshown
      hhint (List.mem_singleton.mp hitem).symm
    obtain rfl := Console.Item.line.inj heq
    rw [Text.startsWith, htext]
    rfl

theorem creates_of_says (h : (w.runInit false).SaysCreated) :
    ∃ p, w.configPath = .ok p ∧ w.Creates p := by
  obtain ⟨text, hmem, hstarts⟩ := h
  cases hp : w.configPath with
  | error f => simp [runInit, hp, Transcript.start, Transcript.crash] at hmem
  | ok p =>
    refine ⟨p, rfl, ?_⟩
    cases hfound : w.exists? p.text with
    | error f => simp [runInit, hp, hfound, Transcript.start] at hmem
    | ok found =>
      cases found with
      | true =>
        simp only [runInit, hp, hfound, Bool.not_false, Bool.and_self, if_true] at hmem
        rw [not_says_of_found rfl hmem] at hstarts
        exact absurd hstarts nofun
      | false =>
        refine ⟨hfound, ?_⟩
        simp only [runInit, hp, hfound, Bool.false_and, Bool.false_eq_true, if_false] at hmem
        cases hleft : w.writeNested p Config.template with
        | mk w' f? =>
          cases f? with
          | none => rfl
          | some f =>
            rw [hleft] at hmem
            simp only at hmem
            split at hmem
            · simp [Transcript.start] at hmem
            · exact absurd hmem List.not_mem_nil

/-- A run without leave to overwrite is sound just if the path does not come back to something by
way of the directories that the run makes. A path without a step up never does, and only a run that
creates a file says so. -/
theorem initSound_iff :
    (w.InitSound ↔ ¬∃ p, w.configPath = .ok p ∧ w.ComesBack p) ∧
    (∀ p, w.configPath = .ok p → (∀ s ∈ p.parts, s ≠ "..") → w.InitSound) ∧
    ((w.runInit false).SaysCreated → ∃ p, w.configPath = .ok p ∧ w.Creates p) := by
  refine ⟨⟨fun hsound ⟨p, hp, hback⟩ => ?_, initSound_of_not_comesBack⟩, fun p hp hup => ?_,
    creates_of_says⟩
  · exact not_initSound_of_comesBack hp hback hsound
  · refine initSound_of_not_comesBack fun ⟨q, hq, hback⟩ => ?_
    obtain rfl := Except.ok.inj (hp.symm.trans hq)
    exact not_comesBack (proper_of_configPath hp) hup hback

def returningWorld : World where
  tree := FileTree.empty.put ["p", "c"] (.file "allow_project_deletion = false\n".toUTF8 .nothing)
  cwd := "/p"
  env := [("SAFE_RM_CONFIG", "/p/new/../c")]
  users := []
  ownHome := none
  git := none
  trashError := none

theorem comesBack_returning : returningWorld.ComesBack (.ofString "/p/new/../c") := by
  have hmade : (returningWorld.ensureDirectories
      (Path.ofString "/p/new/../c").parent).2 = none := by decide +kernel
  have hlocate : ((returningWorld.ensureDirectories (Path.ofString "/p/new/../c").parent).1.locate
      .create (Path.ofString "/p/new/../c").text).toOption = some ["p", "c"] := by decide +kernel
  have hwrite : ((returningWorld.ensureDirectories (Path.ofString "/p/new/../c").parent).1.write
      (Path.ofString "/p/new/../c").text Config.template.toUTF8).toOption.isSome = true := by
    decide +kernel
  have hother : Config.template ≠ "allow_project_deletion = false\n" := by
    intro h
    have hhead := congrArg (fun s => s.toList.head?) h
    rw [Config.template, Text.glue, String.toList_ofList] at hhead
    exact absurd hhead (by decide)
  obtain ⟨w₂, hw₂⟩ := Option.isSome_iff_exists.mp hwrite
  refine ⟨toOption_eq_some.mp (by decide +kernel), _, w₂, ["p", "c"],
    .file "allow_project_deletion = false\n".toUTF8 .nothing, Prod.ext rfl hmade,
    toOption_eq_some.mp hlocate, by decide +kernel, toOption_eq_some.mp hw₂, fun deny h => ?_⟩
  exact hother (String.toByteArray_inj.mp (Entry.file.inj h).1).symm

theorem not_initSound_returning : ¬returningWorld.InitSound :=
  not_initSound_of_comesBack (toOption_eq_some.mp (by decide +kernel)) comesBack_returning

end World
end DeletionGuard
