import DeletionGuard.Proofs.Path.Spelling
import DeletionGuard.Rule

/-!
One meaning of nesting. Boundaries, rules and keys all compare roots and components: a path lies in
another if the components of the other come first in it. So they agree on every pair of texts, and
what follows the components of a directory is found again in the key of a path.
-/
namespace DeletionGuard
variable {p q root : Path} {back : List String} {key : String} {r : Rule} {rules : List Rule}

namespace Path

theorem keyFrom_eq_some : root.keyFrom p = some key ↔
    p.root = root.root ∧ ∃ back, p.parts = root.parts ++ back ∧ (mk .relative back).text = key := by
  unfold keyFrom
  split
  · rename_i h
    rw [Bool.and_eq_true, decide_eq_true_eq, List.isPrefixOf_iff_prefix] at h
    obtain ⟨hroot, back, hback⟩ := h
    rw [← hback, List.drop_left]
    simp [hroot]
  · rename_i h
    rw [Bool.and_eq_true, decide_eq_true_eq, List.isPrefixOf_iff_prefix] at h
    refine ⟨nofun, ?_⟩
    rintro ⟨hroot, back, hback, -⟩
    exact absurd ⟨hroot, back, hback.symm⟩ h

theorem isWithin_iff_key : p.isWithin root = true ↔ ∃ key, root.keyFrom p = some key := by
  rw [isWithin_iff]
  constructor
  · rintro ⟨hroot, back, hback⟩
    exact ⟨_, keyFrom_eq_some.mpr ⟨hroot, back, hback.symm, rfl⟩⟩
  · rintro ⟨key, hkey⟩
    obtain ⟨hroot, back, hback, -⟩ := keyFrom_eq_some.mp hkey
    exact ⟨hroot, back, hback.symm⟩

theorem filter_cut_relative (hp : (mk .relative back).Proper) :
    (Text.cut '/' (mk .relative back).text).filter isPart = back := by
  by_cases hnil : back = []
  · subst hnil
    decide
  · rw [text_of_ne_nil hnil, Root.text, String.empty_append,
      Text.cut_glue hnil fun s hs => (hp s hs).2]
    exact List.filter_eq_self.mpr fun s hs => (hp s hs).1

theorem ofString_text_relative (hp : (mk .relative back).Proper) :
    ofString (mk .relative back).text = mk .relative back := by
  have hroot : (ofString (mk .relative back).text).root = .relative := by
    refine Decidable.byContradiction fun habs => ?_
    have hstart := (isAbsolute_ofString _).symm.trans (decide_eq_true habs)
    exact absurd ((startsWith_text_iff hp).mp hstart) nofun
  exact (mk.injEq ..).mpr ⟨hroot, filter_cut_relative hp⟩

theorem join_keyFrom (hp : p.Proper) (h : root.keyFrom p = some key) :
    root.join (ofString key) = p := by
  obtain ⟨hroot, back, hback, rfl⟩ := keyFrom_eq_some.mp h
  have hproper : (mk .relative back).Proper :=
    fun s hs => hp s (hback ▸ List.mem_append_right root.parts hs)
  rw [ofString_text_relative hproper]
  exact (mk.injEq ..).mpr ⟨hroot.symm, hback.symm⟩

theorem parent_eq_iff : p.parent = q ∧ p ≠ q ↔ p.root = q.root ∧ ∃ s, p.parts = q.parts ++ [s] := by
  constructor
  · rintro ⟨rfl, hne⟩
    have hparts : p.parts ≠ [] := by
      intro hnil
      exact hne (congrArg (mk p.root) (by simp [hnil]))
    exact ⟨rfl, p.parts.getLast hparts, (List.dropLast_concat_getLast hparts).symm⟩
  · rintro ⟨hroot, s, hs⟩
    refine ⟨(mk.injEq ..).mpr ⟨hroot, by simp [hs]⟩, ?_⟩
    rintro rfl
    simp at hs

end Path

namespace Rule

/-- What goes on from the directory of a rule, by one component if the rule is not recursive. -/
def Spans (r : Rule) (p : Path) : Prop :=
  p.root = r.directory.root ∧
    ∃ back, p.parts = r.directory.parts ++ back ∧ (r.recursive = true ∨ back.length = 1)

theorem spans_recursive : (mk q true).Spans p ↔ p.root = q.root ∧ q.parts <+: p.parts := by
  simp [Spans, List.IsPrefix, eq_comm]

theorem spans_direct : (mk q false).Spans p ↔ p.root = q.root ∧ ∃ s, p.parts = q.parts ++ [s] := by
  refine and_congr_right fun _ => ⟨?_, ?_⟩
  · rintro ⟨back, hback, hrecursive | hone⟩
    · exact absurd hrecursive nofun
    · obtain ⟨s, rfl⟩ := List.length_eq_one_iff.mp hone
      exact ⟨s, hback⟩
  · rintro ⟨s, hs⟩
    exact ⟨[s], hs, .inr rfl⟩

theorem covers_iff : r.covers p = true ↔ r.Spans p := by
  obtain ⟨directory, recursive⟩ := r
  cases recursive with
  | true => rw [covers, if_pos rfl, Path.isWithin_iff, spans_recursive]
  | false =>
    rw [covers, if_neg Bool.false_ne_true, Bool.and_eq_true, decide_eq_true_eq, decide_eq_true_eq,
      Path.parent_eq_iff, spans_direct]

end Rule

theorem covered_iff : covered rules p = true ↔ ∃ r ∈ rules, r.Spans p := by
  rw [covered, List.any_eq_true]
  exact exists_congr fun r => and_congr_right fun _ => Rule.covers_iff

namespace Path

/-- Every test by which the program relates a path to a directory looks at their roots and
components alone. -/
structure Nested (p q : Path) : Prop where
  within : p.isWithin q = true ↔ p.root = q.root ∧ q.parts <+: p.parts
  deep : (Rule.mk q true).covers p = true ↔ p.root = q.root ∧ q.parts <+: p.parts
  direct : (Rule.mk q false).covers p = true ↔ p.root = q.root ∧ ∃ s, p.parts = q.parts ++ [s]
  /-- Not even where a directory is its own parent does a rule for its children cover it. -/
  itself : (Rule.mk q false).covers q = false
  covered : ∀ rules, covered rules p = true ↔ ∃ r ∈ rules, r.Spans p
  keyed : (∃ key, q.keyFrom p = some key) ↔ p.isWithin q = true
  recalled : ∀ key, q.keyFrom p = some key → q.join (ofString key) = p

/-- All texts, of whatever root and with whatever components, are compared in one way. -/
theorem nested_ofString (s t : String) : Nested (ofString s) (ofString t) where
  within := isWithin_iff _ _
  deep := Rule.covers_iff.trans Rule.spans_recursive
  direct := Rule.covers_iff.trans Rule.spans_direct
  itself := by
    rw [← Bool.not_eq_true, Rule.covers_iff, Rule.spans_direct]
    rintro ⟨-, part, hpart⟩
    exact absurd (congrArg List.length hpart) (by simp)
  covered _ := covered_iff
  keyed := isWithin_iff_key.symm
  recalled _ := join_keyFrom (proper_ofString s)

end Path
end DeletionGuard
