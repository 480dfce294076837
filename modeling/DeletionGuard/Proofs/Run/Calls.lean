import DeletionGuard.Proofs.FileTree.Ending
import DeletionGuard.Proofs.Path.Completion

/-!
Exactly when a call that takes something away succeeds at a place, and what it leaves. Whether a
place yields depends only on the directories above it, so it is the same in every tree in which
something lies there.
-/
namespace DeletionGuard
open FileTree

/-- What lies at a place can be taken away by the path of the place, as far as the directories above
it and the path are concerned. -/
structure FileTree.Yields (t : FileTree) (l : Location) : Prop where
  ne : l ≠ []
  fits : World.Fits l
  way : t.Open l
  held : ∃ deny, t.find? l.dropLast = some (.dir deny) ∧ deny.write = false

/-- The trash takes what lies at a place, if anything does. -/
structure World.Accepts (w : World) (l : Location) : Prop where
  working : w.trashError = none
  ne : l ≠ []
  fits : Fits l
  way : w.tree.Open l
  taken : w.trash.refusal w.tree l (Path.mk .single l).text = none

/-- A directory at a place can be listed by the path of the place. -/
structure FileTree.Lists (t : FileTree) (l : Location) : Prop where
  fits : World.Fits l
  way : t.Open l
  readable : ∃ deny, t.find? l = some (.dir deny) ∧ deny.read = false

namespace World
variable {w w' : World} {t : FileTree} {l m : Location} {e : Entry} {ending : Ending}

theorem locate_keep_iff (hpart : w.tree.PartOf t) (hplace : t.Occupied l) :
    w.locate .keep (Path.mk .single l).text = .ok m ↔
      m = l ∧ w.tree.Occupied l ∧ w.tree.Open l ∧ Fits l := by
  obtain ⟨e, hfind⟩ := hplace
  have hproper : (Path.mk .single l).Proper :=
    fun s hs => Path.isPart_of_isName (isName_of_find? hfind s hs)
  constructor
  · intro h
    obtain rfl : m = l := locate_keep hpart hproper rfl (plain_of_find? hfind) h
    refine ⟨rfl, ?_, ?_, fits_of_locate hproper h⟩
    · have hwalk := walk_of_locate hproper rfl h
      by_cases hnil : m = []
      · exact hnil ▸ ⟨_, find?_nil w.tree⟩
      · simp only [List.isEmpty_eq_false_iff.mpr hnil] at hwalk
        exact occupied_of_walk (solid_nil w.tree) hwalk
    · have hwalk := walk_of_locate hproper rfl h
      by_cases hnil : m = []
      · exact hnil ▸ open_nil w.tree
      · simp only [List.isEmpty_eq_false_iff.mpr hnil] at hwalk
        obtain ⟨k, hlead, harrive⟩ := arrives_of_walk hnil hwalk
        have hopen := hlead.open (open_nil w.tree)
        cases harrive with
        | onto hturn => exact hopen.of_onto hturn
        | link target hturn => exact hopen.of_link hturn
  · rintro ⟨rfl, ⟨e', hfind'⟩, hopen, hfits⟩
    exact locate_of_open hopen hfind' hfits

theorem mayChange_iff : w.mayChange l = true ↔
    ∃ deny, w.tree.find? l = some (.dir deny) ∧ deny.write = false ∧ deny.search = false := by
  unfold mayChange FileTree.mayChange
  split
  · rename_i deny hfind
    simp [hfind]
  · rename_i hdir
    simp only [Bool.false_eq_true, false_iff]
    rintro ⟨deny, hfind, -⟩
    exact hdir deny hfind

theorem yields_iff : w.tree.Yields l ↔
    l ≠ [] ∧ Fits l ∧ w.tree.Open l ∧ w.mayChange l.dropLast = true := by
  constructor
  · rintro ⟨hne, hfits, hway, deny, hfind, hwrite⟩
    refine ⟨hne, hfits, hway, mayChange_iff.mpr ⟨deny, hfind, hwrite, ?_⟩⟩
    obtain ⟨⟨deny', hfind', hsearch⟩, -⟩ := hway l.dropLast (l.getLast hne)
      ⟨[], by rw [List.append_nil, List.dropLast_concat_getLast hne]⟩
    rw [hfind] at hfind'
    cases hfind'
    exact hsearch
  · rintro ⟨hne, hfits, hway, hchange⟩
    obtain ⟨deny, hfind, hwrite, -⟩ := mayChange_iff.mp hchange
    exact ⟨hne, hfits, hway, deny, hfind, hwrite⟩

theorem unlink_eq_ok_iff (hpart : w.tree.PartOf t) (hplace : t.Occupied l) :
    w.unlink (Path.mk .single l).text = .ok w' ↔
      w' = w.without l ∧ w.tree.Yields l ∧ w.tree.Occupied l ∧ w.tree.isDir l = false := by
  rw [unlink, bind_eq_ok, yields_iff]
  constructor
  · rintro ⟨m, hm, h⟩
    obtain ⟨rfl, hocc, hopen, hfits⟩ := (locate_keep_iff hpart hplace).mp hm
    split at h
    · exact absurd h nofun
    · rename_i hne
      split at h
      · exact absurd h nofun
      · rename_i hchange
        split at h
        · exact absurd h nofun
        · rename_i hfile
          refine ⟨(Except.ok.inj h).symm, ⟨hne, hfits, hopen, ?_⟩, hocc, ?_⟩
          · simpa using hchange
          · simpa using hfile
  · rintro ⟨rfl, ⟨hne, hfits, hopen, hchange⟩, hocc, hfile⟩
    refine ⟨l, (locate_keep_iff hpart hplace).mpr ⟨rfl, hocc, hopen, hfits⟩, ?_⟩
    simp [hne, hchange, hfile]

theorem rmdir_eq_ok_iff (hpart : w.tree.PartOf t) (hplace : t.Occupied l) :
    w.rmdir (Path.mk .single l).text = .ok w' ↔
      w' = w.without l ∧ w.tree.Yields l ∧ w.tree.isDir l = true ∧ w.tree.children l = [] := by
  rw [rmdir, bind_eq_ok, yields_iff]
  constructor
  · rintro ⟨m, hm, h⟩
    obtain ⟨rfl, hocc, hopen, hfits⟩ := (locate_keep_iff hpart hplace).mp hm
    split at h
    · exact absurd h nofun
    · rename_i hne
      split at h
      · exact absurd h nofun
      · rename_i hchange
        split at h
        · exact absurd h nofun
        · rename_i hdir
          split at h
          · exact absurd h nofun
          · rename_i hempty
            refine ⟨(Except.ok.inj h).symm, ⟨hne, hfits, hopen, ?_⟩, ?_, ?_⟩
            · simpa using hchange
            · simpa using hdir
            · simpa using hempty
  · rintro ⟨rfl, ⟨hne, hfits, hopen, hchange⟩, hdir, hempty⟩
    refine ⟨l, (locate_keep_iff hpart hplace).mpr ⟨rfl, occupied_of_isDir hdir, hopen, hfits⟩, ?_⟩
    simp [hne, hchange, hdir, hempty]

theorem discard_eq_ok_iff (hpart : w.tree.PartOf t) (hplace : t.Occupied l) :
    w.discard (Path.mk .single l).text = .ok w' ↔
      w' = w.without l ∧ w.Accepts l ∧ w.tree.Occupied l := by
  unfold discard
  constructor
  · intro h
    split at h
    · exact absurd h nofun
    · rename_i hworking
      obtain ⟨m, hm, h⟩ := bind_eq_ok.mp h
      obtain ⟨rfl, hocc, hopen, hfits⟩ := (locate_keep_iff hpart hplace).mp hm
      split at h
      · exact absurd h nofun
      · rename_i hne
        split at h
        · exact absurd h nofun
        · rename_i htaken
          exact ⟨(Except.ok.inj h).symm, ⟨hworking, hne, hfits, hopen, htaken⟩, hocc⟩
  · rintro ⟨rfl, ⟨hworking, hne, hfits, hopen, htaken⟩, hocc⟩
    have hl := (locate_keep_iff hpart hplace).mpr ⟨rfl, hocc, hopen, hfits⟩
    simp [hworking, hl, Except.bind, hne, htaken]

theorem list_eq_ok_iff {entries : List (String × Entry)} (hpart : w.tree.PartOf t)
    (hplace : t.Solid l) : w.list (Path.mk .single l).text = .ok entries ↔
      entries = w.tree.children l ∧ w.tree.Lists l := by
  obtain ⟨e, hfind, -⟩ := id hplace
  have hproper : (Path.mk .single l).Proper :=
    fun s hs => Path.isPart_of_isName (isName_of_find? hfind s hs)
  rw [list, bind_eq_ok]
  constructor
  · rintro ⟨m, hm, h⟩
    obtain rfl : m = l := locate_follow hpart hproper rfl hplace hm
    split at h
    · rename_i deny hdir
      split at h
      · exact absurd h nofun
      · rename_i hread
        have hlead := leads_of_walk (.inl rfl) (walk_of_locate hproper rfl hm)
        refine ⟨(Except.ok.inj h).symm, fits_of_locate hproper hm, hlead.open (open_nil _), ?_⟩
        exact ⟨deny, hdir, by simpa using hread⟩
    · exact absurd h nofun
  · rintro ⟨rfl, hfits, hopen, deny, hdir, hread⟩
    refine ⟨l, ?_, by simp [hdir, hread]⟩
    have hkeep : w.tree.walk .keep maxLinks [] l false = .ok l := walk_of_open hopen hdir
    have hfollow := walk_follow_of_keep (by simp [hdir]) hkeep
    rw [locate_of_fits hproper hfits]
    by_cases hnil : l = []
    · simp [hnil]
    · rw [List.isEmpty_eq_false_iff.mpr hnil, hfollow]
      rfl

end World
end DeletionGuard
