import DeletionGuard.Proofs.Run.Printing
import Mathlib.Data.List.TakeWhile

/-!
Texts in marked-up lines. A text without brackets and backslashes is shown as it is, in a style or
in none. A style that is a word in small letters is closed by its own name.
-/
namespace DeletionGuard
variable {a b x y cs : List Char} {c : Char} {s text : String} {n : Nat}

theorem Text.expandTabs_of_not_mem (h : '\t' ∉ s.toList) : expandTabs s = s := by
  have hline : ∀ piece ∈ cut '\n' s, expandLine piece = piece := by
    intro piece hpiece
    have hnone : '\t' ∉ piece.toList := by
      intro hmem
      rw [← glue_cut '\n' s, mem_glue (by decide)] at h
      exact h ⟨piece, hpiece, hmem⟩
    rw [expandLine, List.splitOn_eq_singleton hnone, layTabs, String.ofList_toList]
  rw [expandTabs, List.map_congr_left hline, List.map_id', glue_cut]

namespace Markup
variable {name style : List Char}

/-- A character that is shown as it is, unless it is part of a tag. -/
def IsLiteral (c : Char) : Prop :=
  c ≠ '\\' ∧ isDropped c = false ∧ c ≠ '\t'

instance (c : Char) : Decidable (IsLiteral c) :=
  inferInstanceAs (Decidable (_ ∧ _ ∧ _))

def Literal (text : String) : Prop :=
  ∀ c ∈ text.toList, IsLiteral c

instance (text : String) : Decidable (Literal text) :=
  decidable_of_iff ((text.toList.all fun c => decide (IsLiteral c)) = true) (by simp [Literal])

/-- A literal text with nothing in it that may be part of a tag. -/
def Unmarked (text : String) : Prop :=
  ∀ c ∈ text.toList, IsPlain c ∧ IsLiteral c

instance (text : String) : Decidable (Unmarked text) :=
  decidable_of_iff ((text.toList.all fun c => decide (IsPlain c ∧ IsLiteral c)) = true)
    (by simp [Unmarked])

theorem Unmarked.plain (h : Unmarked text) : ∀ c ∈ text.toList, IsPlain c :=
  fun c hc => (h c hc).1

theorem Unmarked.literal (h : Unmarked text) : Literal text :=
  fun c hc => (h c hc).2

theorem Literal.append {text' : String} (h : Literal text) (h' : Literal text') :
    Literal (text ++ text') := by
  intro c hc
  rw [String.toList_append] at hc
  exact (List.mem_append.mp hc).elim (h c) (h' c)

theorem Literal.not_mem (h : Literal text) : '\\' ∉ text.toList :=
  fun hmem => (h _ hmem).1 rfl

theorem Unmarked.append {text' : String} (h : Unmarked text) (h' : Unmarked text') :
    Unmarked (text ++ text') := by
  intro c hc
  rw [String.toList_append] at hc
  exact (List.mem_append.mp hc).elim (h c) (h' c)

theorem isShown_of_isDigit (h : c.isDigit = true) : IsShown c := by
  have hne {d : Char} (hd : d.isDigit = false) : c ≠ d := by
    rintro rfl
    exact Bool.false_ne_true (hd.symm.trans h)
  refine ⟨hne rfl, hne rfl, ?_, hne rfl, hne rfl, hne rfl⟩
  simp only [isDropped, Bool.or_eq_false_iff, decide_eq_false_iff_not]
  exact ⟨⟨⟨⟨hne rfl, hne rfl⟩, hne rfl⟩, hne rfl⟩, hne rfl⟩

theorem isShown_of_mem_repr (h : c ∈ (Nat.repr n).toList) : IsShown c := by
  rw [Nat.toList_repr] at h
  exact isShown_of_isDigit (Nat.isDigit_of_mem_toDigits (by decide) (by decide) h)

theorem unmarked_repr (n : Nat) : Unmarked (Nat.repr n) := by
  intro c hc
  have hshown := isShown_of_mem_repr hc
  exact ⟨hshown.isPlain, hshown.2.1, hshown.2.2.1, hshown.2.2.2.1⟩

/-- Marked-up text closes the tags that it opens, and between them it shows a text. -/
def Shows (markup shown : List Char) : Prop :=
  ∀ position cs, ∃ position', renderParts [] (partsFrom 0 position (markup ++ cs)) =
    (renderParts [] (partsFrom 0 position' cs)).map (shown ++ ·)

theorem shows_plain (h : ∀ c ∈ a, IsPlain c) : Shows a a := by
  intro position cs
  exact ⟨_, by rw [partsFrom_append h, renderParts_append h]⟩

theorem Shows.append (h : Shows a x) (h' : Shows b y) : Shows (a ++ b) (x ++ y) := by
  intro position cs
  obtain ⟨position₁, h₁⟩ := h position (b ++ cs)
  obtain ⟨position₂, h₂⟩ := h' position₁ cs
  refine ⟨position₂, ?_⟩
  rw [List.append_assoc, h₁, h₂, map_append_map]

structure Pairs (style name : List Char) : Prop where
  begins : ∃ c rest, style = c :: rest ∧ beginsTag c = true
  bare : ']' ∉ style ∧ '[' ∉ style
  opened : ∀ position, stack [] style position = .ok [name]
  closed : ∀ position, stack [name] ('/' :: style) position = .ok []

theorem shows_styled {style : String} (h : Pairs style.toList name)
    (htext : ∀ c ∈ text.toList, IsPlain c) :
    Shows (Console.styled style text).toList text.toList := by
  intro position cs
  obtain ⟨⟨c, rest, hstyle, hbegins⟩, ⟨hclose, hopen⟩, hopened, hclosed⟩ := h
  have hmarkup : (Console.styled style text).toList ++ cs = '[' :: (c :: rest ++ ']' ::
      (text.toList ++ '[' :: ('/' :: style.toList ++ ']' :: cs))) := by
    simp [Console.styled, hstyle]
  rw [hmarkup, partsFrom_tag _ _ hbegins (fun hmem => hclose (hstyle ▸ List.mem_cons_of_mem c hmem))
    (fun hmem => hopen (hstyle ▸ List.mem_cons_of_mem c hmem)), ← hstyle, renderParts, hopened]
  dsimp only
  rw [partsFrom_append htext, renderParts_append htext,
    partsFrom_tag _ _ (by decide) hclose hopen, renderParts, hclosed]
  exact ⟨_, rfl⟩

theorem toNat_of_isLower (hc : c.isLower = true) : 97 ≤ c.toNat ∧ c.toNat ≤ 122 := by
  obtain ⟨hge, hle⟩ := Bool.and_eq_true_iff.mp hc
  exact ⟨UInt32.le_iff_toNat_le.mp (of_decide_eq_true hge),
    UInt32.le_iff_toNat_le.mp (of_decide_eq_true hle)⟩

theorem isBlank_of_isLower (hc : c.isLower = true) : Text.isBlank c = false := by
  obtain ⟨hge, hle⟩ := toNat_of_isLower hc
  have hcode : ¬c.toNat ≤ 0x0D := by omega
  simp [Text.isBlank, Text.inRanges, Text.blankRanges]
  omega

theorem toLower_of_isLower (hc : c.isLower = true) : c.toLower = c := by
  obtain ⟨hge, hle⟩ := toNat_of_isLower hc
  refine dif_neg fun hupper => ?_
  have hle' : c.toNat ≤ 90 := UInt32.le_iff_toNat_le.mp hupper.2
  omega

theorem pairs_of_isLower (hne : style ≠ []) (h : style.all Char.isLower = true) :
    Pairs style style := by
  have hlower : ∀ c ∈ style, c.isLower = true := List.all_eq_true.mp h
  have hother {d : Char} (hd : d.isLower = false) : d ∉ style := fun hmem =>
    Bool.false_ne_true (hd.symm.trans (hlower d hmem))
  have hblank {cs : List Char} (hcs : ∀ c ∈ cs, c.isLower = true) :
      cs.dropWhile Text.isBlank = cs :=
    List.dropWhile_eq_self_iff.mpr fun hlength => by
      simp [isBlank_of_isLower (hcs _ (List.getElem_mem hlength))]
  have hstrip : (Text.strip (String.ofList style)).toList = style := by
    rw [Text.strip, String.toList_ofList, String.toList_ofList, hblank hlower,
      hblank fun c hc => hlower c (List.mem_reverse.mp hc), List.reverse_reverse]
  have hname : styleName style = style := by
    rw [styleName, hstrip, List.map_congr_left fun c hc => toLower_of_isLower (hlower c hc),
      List.map_id']
  have htag {cs : List Char} (hcs : '=' ∉ cs) : tagName cs = cs :=
    List.takeWhile_eq_self_iff.mpr fun c hc => by simpa using fun heq : c = '=' => hcs (heq ▸ hc)
  have hslash : '/' ∉ style := hother rfl
  obtain ⟨c, rest, hstyle⟩ := List.exists_cons_of_ne_nil hne
  have hbegins : beginsTag c = true := by
    rw [beginsTag, hlower c (hstyle ▸ List.mem_cons_self)]
    rfl
  refine ⟨⟨c, rest, hstyle, hbegins⟩, ⟨hother rfl, hother rfl⟩, fun position => ?_,
    fun position => ?_⟩
  · rw [stack, htag (hother rfl)]
    split
    · exact absurd List.mem_cons_self hslash
    · rw [hname]
  · have hclose : '=' ∉ '/' :: style := by
      rw [List.mem_cons, not_or]
      exact ⟨by decide, hother rfl⟩
    rw [stack, htag hclose]
    simp only [hstrip, hname, if_neg hne]
    simp

theorem Shows.renderParts (h : Shows s.toList cs) :
    renderParts [] (partsFrom 0 0 s.toList) = .ok cs := by
  obtain ⟨position, hparts⟩ := h 0 []
  rw [List.append_nil] at hparts
  rw [hparts]
  simp [Markup.renderParts, partsFrom, Except.map]

theorem Literal.filter (h : Literal text) : text.toList.filter (!isDropped ·) = text.toList :=
  List.filter_eq_self.mpr fun c hc => by simp [(h c hc).2.1]

theorem render_of_shows {e : Emoji} (h : Shows s.toList text.toList) (htext : Literal text)
    (hcode : e.Codeless text.toList) : render e s = .ok text := by
  rw [render_of_leaves h.renderParts (leaves_of_codeless h.renderParts hcode), htext.filter,
    String.ofList_toList]

theorem line_of_shows {screen : Screen} (h : Shows s.toList text.toList) (htext : Literal text)
    (hcode : screen.emoji.Codeless text.toList) :
    Console.line screen s = .ok (.line (text ++ "\n")) := by
  have htab : '\t' ∉ text.toList := fun hmem => (htext _ hmem).2.2 rfl
  rw [Console.line, render_of_shows h htext hcode, Except.map, Text.expandTabs_of_not_mem htab]

theorem render_styled (e : Emoji) {style : String} (hstyle : Pairs style.toList name)
    (htext : Unmarked text) (hcolon : ':' ∉ text.toList) :
    render e (Console.styled style text) = .ok text :=
  render_of_shows (shows_styled hstyle htext.plain) htext.literal (e.codeless_of_not_mem hcolon)

end Markup
end DeletionGuard
