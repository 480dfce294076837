import DeletionGuard.Proofs.FileTree.Walking

/-!
How walks end. A dot or a slash at the end of a path asks for a directory there, and changes nothing
else; whether a last link is kept matters only where there is one.
-/
namespace DeletionGuard.FileTree
variable {t : FileTree} {ending : Ending} {n : Nat} {here l : Location} {s : String}
  {steps rest : List String} {slashed : Bool}

theorem isDir_of_walk (hending : ending ≠ .create)
    (hlast : slashed = true ∨ steps.getLast? = some ".")
    (h : t.walk ending n here steps slashed = .ok l) : t.isDir l = true := by
  induction n, here, steps using walk_induction generalizing slashed with
  | nil n here =>
    obtain rfl : slashed = true := hlast.resolve_right nofun
    rw [walk_nil] at h
    split at h
    · exact absurd h nofun
    · rename_i hdir
      rw [← Except.ok.inj h]
      simpa using hdir
  | cons n here s rest ihrest ihn =>
    rw [walk_cons] at h
    cases hturn : t.turn here s with
    | error e => simp [hturn] at h
    | ok x =>
      rw [hturn] at h
      cases x with
      | onto m =>
        by_cases hrest : rest = []
        · subst hrest
          obtain rfl | hlast := hlast
          · exact ihrest m (.inl rfl) h
          · obtain rfl : s = "." := by simpa using hlast
            cases slashed with
            | true => exact ihrest m (.inl rfl) h
            | false =>
              obtain rfl : m = l := by simpa using h
              obtain ⟨-, rfl⟩ | ⟨hup, -⟩ | ⟨hne, -⟩ := turn_onto hturn
              · exact isDir_of_turn hturn
              · exact absurd hup (by decide)
              · exact absurd rfl hne
        · rw [List.getLast?_cons_of_ne_nil hrest] at hlast
          exact ihrest m hlast h
      | free m => simp [hending] at h
      | link m target =>
        have hlast' : (slashed || rest.isEmpty && (Route.ofString target).slashed) = true ∨
            ((Route.ofString target).steps ++ rest).getLast? = some "." := by
          obtain rfl | hlast := hlast
          · exact .inl rfl
          · by_cases hrest : rest = []
            · subst hrest
              exact absurd (by simpa using hlast) (turn_link hturn).1
            · rw [List.getLast?_cons_of_ne_nil hrest] at hlast
              exact .inr (by rw [List.getLast?_append, hlast, Option.some_or])
        have hkept : (rest.isEmpty && !slashed && decide (ending = .keep)) = false := by
          obtain rfl | hlast := hlast
          · simp
          · by_cases hrest : rest = []
            · subst hrest
              exact absurd (by simpa using hlast) (turn_link hturn).1
            · simp [hrest]
        simp only [hkept, Bool.false_eq_true, if_false] at h
        split at h
        · exact absurd h nofun
        · cases n with
          | zero => exact absurd h nofun
          | succ k => exact ihn k rfl _ _ hlast' h

theorem walk_follow_of_keep (hplain : ∀ target, t.find? l ≠ some (.link target))
    (h : t.walk .keep n here steps false = .ok l) : t.walk .follow n here steps false = .ok l := by
  induction n, here, steps using walk_induction with
  | nil n here => simpa using h
  | cons n here s rest ihrest ihn =>
    rw [walk_cons] at h ⊢
    cases hturn : t.turn here s with
    | error e => simp [hturn] at h
    | ok x =>
      rw [hturn] at h
      cases x with
      | onto m => exact ihrest m h
      | free m => simp at h
      | link m target =>
        by_cases hrest : rest = []
        · subst hrest
          obtain rfl : m = l := by simpa using h
          exact absurd (turn_link hturn).2.2.2 (hplain target)
        · have hempty : rest.isEmpty = false := by simpa using hrest
          simp only [hempty, Bool.false_and, Bool.false_eq_true, if_false, Bool.or_false] at h ⊢
          split at h
          · exact absurd h nofun
          · rename_i htarget
            rw [if_neg htarget]
            cases n with
            | zero => exact absurd h nofun
            | succ k => exact ihn k rfl _ _ h

theorem walk_slashed_of_follow (hdir : t.isDir l = true)
    (h : t.walk .follow n here steps slashed = .ok l) : t.walk .keep n here steps true = .ok l := by
  induction n, here, steps using walk_induction generalizing slashed with
  | nil n here =>
    rw [walk_nil] at h ⊢
    split at h
    · exact absurd h nofun
    · obtain rfl := Except.ok.inj h
      simp [hdir]
  | cons n here s rest ihrest ihn =>
    rw [walk_cons] at h ⊢
    cases hturn : t.turn here s with
    | error e => simp [hturn] at h
    | ok x =>
      rw [hturn] at h
      cases x with
      | onto m => exact ihrest m h
      | free m => simp at h
      | link m target =>
        simp only [Bool.not_true, Bool.and_false, Bool.false_and, Bool.false_eq_true, if_false,
          Bool.true_or, reduceCtorEq, decide_false] at h ⊢
        split at h
        · exact absurd h nofun
        · rename_i htarget
          rw [if_neg htarget]
          cases n with
          | zero => exact absurd h nofun
          | succ k => exact ihn k rfl _ _ h

theorem walk_dots (hdir : t.isDir l = true) (k : Nat) :
    t.walk .keep n l (List.replicate k ".") slashed = .ok l ∨
      t.walk .keep n l (List.replicate k ".") slashed = .error .noAccess := by
  induction k with
  | zero => exact .inl (by simp [hdir])
  | succ k ih =>
    obtain ⟨deny, hfind⟩ := isDir_iff.mp hdir
    have hturn : t.turn l "." = .ok (.onto l) ∨ t.turn l "." = .error .noAccess := by
      unfold turn
      rw [hfind]
      cases deny.search <;> simp
    rw [List.replicate_succ, walk_cons]
    obtain hturn | hturn := hturn
    · rw [hturn]
      exact ih
    · rw [hturn]
      exact .inr rfl

theorem exists_dots (steps : List String) :
    ∃ front k, steps = front ++ List.replicate k "." ∧ front.getLast? ≠ some "." := by
  induction steps with
  | nil => exact ⟨[], 0, rfl, nofun⟩
  | cons s rest ih =>
    obtain ⟨front, k, rfl, hfront⟩ := ih
    by_cases hdots : front = [] ∧ s = "."
    · obtain ⟨rfl, rfl⟩ := hdots
      exact ⟨[], k + 1, rfl, nofun⟩
    · refine ⟨s :: front, k, rfl, ?_⟩
      by_cases hnil : front = []
      · subst hnil
        simpa using hdots
      · rwa [List.getLast?_cons_of_ne_nil hnil]

theorem withoutDots_append_dots (front : List String) (k : Nat) :
    withoutDots (front ++ List.replicate k ".") = withoutDots front := by
  simp [withoutDots, List.filter_append]

theorem walk_append_dots (hdir : t.isDir l = true) (h : t.walk .keep n here steps false = .ok l)
    (k : Nat) (hasked : k ≠ 0 ∨ slashed = true) :
    t.walk .keep n here (steps ++ List.replicate k ".") slashed = .ok l ∨
      t.walk .keep n here (steps ++ List.replicate k ".") slashed = .error .noAccess := by
  obtain ⟨deny, hfind⟩ := isDir_iff.mp hdir
  have hfollow : t.walk .follow n here steps false = .ok l :=
    walk_follow_of_keep (by simp [hfind]) h
  cases k with
  | zero =>
    obtain rfl : slashed = true := hasked.resolve_left (by simp)
    rw [List.replicate_zero, List.append_nil]
    exact .inl (walk_slashed_of_follow hdir hfollow)
  | succ k =>
    obtain ⟨j, hj, happend⟩ := exists_walk_append hfollow
    have hrun := (happend .keep (List.replicate (k + 1) ".") slashed (by simp)).1 (n - j)
    rw [Nat.add_sub_cancel' hj] at hrun
    rw [hrun]
    exact walk_dots hdir (k + 1)

end DeletionGuard.FileTree
