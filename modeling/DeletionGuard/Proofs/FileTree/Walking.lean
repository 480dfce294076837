import DeletionGuard.FileTree.Walk
import DeletionGuard.Proofs.FileTree.Lookup

/-!
Walks, one component at a time. A walk is a chain of turns; a turn into a link hands on to the
components of its target, for as long as links may be followed. Dots inside a path make no
difference, part of a walk is a walk, and a walk can be cut where it has reached a directory.
-/
namespace DeletionGuard.FileTree

inductive Turn where
  | onto (l : Location)
  /-- There is nothing at the location yet. -/
  | free (l : Location)
  | link (l : Location) (target : String)
  deriving DecidableEq, Repr

def turn (t : FileTree) (here : Location) (s : String) : Except Errno Turn :=
  match t.find? here with
  | some (.dir deny) =>
    if deny.search then .error .noAccess
    else if s = "." then .ok (.onto here)
    else if s = ".." then .ok (.onto here.dropLast)
    else if maxName < s.utf8ByteSize then .error .nameTooLong
    else
      match t.find? (here ++ [s]) with
      | none => .ok (.free (here ++ [s]))
      | some (.link target) => .ok (.link (here ++ [s]) target)
      | some _ => .ok (.onto (here ++ [s]))
  | _ => .error .notDirectory

def landing (here : Location) (target : String) : Location :=
  if (Route.ofString target).absolute then [] else here

def jump (t : FileTree) (ending : Ending) :
    Nat → Location → List String → Bool → Except Errno Location
  | 0 => fun _ _ _ => .error .tooManyLinks
  | n + 1 => t.walk ending n

variable {t : FileTree} {ending : Ending} {n : Nat} {here l : Location} {s : String}
  {steps rest : List String} {slashed : Bool}

theorem walk_eq_advance (t : FileTree) (ending : Ending) (n : Nat) :
    t.walk ending n = t.advance ending (t.jump ending n) := by
  cases n <;> rfl

@[simp] theorem walk_nil : t.walk ending n here [] slashed =
    if slashed && !t.isDir here then .error .notDirectory else .ok here := by
  rw [walk_eq_advance, advance]

theorem walk_cons : t.walk ending n here (s :: rest) slashed =
    match t.turn here s with
    | .error e => .error e
    | .ok (.onto l) => t.walk ending n l rest slashed
    | .ok (.free l) =>
      if ending = .create && rest.isEmpty && !slashed then .ok l else .error .noEntry
    | .ok (.link l target) =>
      if rest.isEmpty && !slashed && ending = .keep then .ok l
      else if target = "" then .error .noEntry
      else t.jump ending n (landing here target) ((Route.ofString target).steps ++ rest)
        (slashed || rest.isEmpty && (Route.ofString target).slashed) := by
  rw [walk_eq_advance, advance, turn, ← walk_eq_advance]
  cases hfind : t.find? here with
  | none => rfl
  | some e =>
    cases e with
    | dir deny =>
      simp only
      split
      · rfl
      · split
        · rfl
        · split
          · rfl
          · split
            · rfl
            · cases t.find? (here ++ [s]) with
              | none => rfl
              | some e => cases e <;> rfl
    | _ => rfl

/-- A statement about walks is proved from the end of the components to their beginning, given what
it says of walks that may follow fewer links. -/
theorem walk_induction {motive : Nat → Location → List String → Prop}
    (nil : ∀ n here, motive n here [])
    (cons : ∀ n here s rest, (∀ l, motive n l rest) →
      (∀ k, k + 1 = n → ∀ l steps, motive k l steps) → motive n here (s :: rest))
    (n : Nat) (here : Location) (steps : List String) : motive n here steps := by
  induction n generalizing here steps with
  | zero =>
    induction steps generalizing here with
    | nil => exact nil 0 here
    | cons s rest ih => exact cons 0 here s rest ih fun k hk => absurd hk (Nat.succ_ne_zero k)
  | succ n ihn =>
    induction steps generalizing here with
    | nil => exact nil (n + 1) here
    | cons s rest ih =>
      refine cons (n + 1) here s rest ih fun k hk l steps => ?_
      rw [Nat.succ.inj hk]
      exact ihn l steps

theorem isDir_of_turn {x : Turn} (h : t.turn here s = .ok x) : t.isDir here = true := by
  unfold turn at h
  split at h
  · rename_i deny hfind
    exact isDir_iff.mpr ⟨deny, hfind⟩
  · exact absurd h nofun

theorem turn_onto (h : t.turn here s = .ok (.onto l)) :
    (s = "." ∧ l = here) ∨ (s = ".." ∧ l = here.dropLast) ∨
      (s ≠ "." ∧ s ≠ ".." ∧ l = here ++ [s] ∧ ∃ e, t.find? l = some e ∧ e.isLink = false) := by
  unfold turn at h
  split at h
  · by_cases hdot : s = "."
    · grind
    · by_cases hup : s = ".."
      · grind
      · refine .inr (.inr ⟨hdot, hup, ?_⟩)
        cases hfind : t.find? (here ++ [s]) with
        | none => grind
        | some e => cases e <;> grind [Entry.isLink]
  · exact absurd h nofun

theorem turn_link {target : String} (h : t.turn here s = .ok (.link l target)) :
    s ≠ "." ∧ s ≠ ".." ∧ l = here ++ [s] ∧ t.find? l = some (.link target) := by
  unfold turn at h
  grind

theorem turn_error {x : Errno} (hdir : t.isDir here = true) (h : t.turn here s = .error x) :
    x = .noAccess ∨ x = .nameTooLong := by
  obtain ⟨d, hd⟩ := isDir_iff.mp hdir
  unfold turn at h
  rw [hd] at h
  grind

theorem turn_free (h : t.turn here s = .ok (.free l)) : l = here ++ [s] ∧ t.find? l = none := by
  unfold turn at h
  grind

theorem walk_succ {r : Except Errno Location} (h : t.walk ending n here steps slashed = r)
    (hr : r ≠ .error .tooManyLinks) : t.walk ending (n + 1) here steps slashed = r := by
  induction n, here, steps using walk_induction generalizing slashed with
  | nil n here => simpa using h
  | cons n here s rest ihrest ihn =>
    rw [walk_cons] at h ⊢
    cases hturn : t.turn here s with
    | error e => simpa [hturn] using h
    | ok x =>
      rw [hturn] at h
      cases x with
      | onto l => exact ihrest l h
      | free l => exact h
      | link l target =>
        simp only at h ⊢
        split
        · rename_i hkeep
          rwa [if_pos hkeep] at h
        · rename_i hkeep
          rw [if_neg hkeep] at h
          split
          · rename_i hempty
            rwa [if_pos hempty] at h
          · rename_i hempty
            rw [if_neg hempty] at h
            cases n with
            | zero => exact absurd h.symm hr
            | succ k => exact ihn k rfl _ _ h

theorem walk_add {r : Except Errno Location} (h : t.walk ending n here steps slashed = r)
    (hr : r ≠ .error .tooManyLinks) (k : Nat) : t.walk ending (n + k) here steps slashed = r := by
  induction k with
  | zero => exact h
  | succ k ih => exact walk_succ ih hr

theorem walk_le {r : Except Errno Location} {m : Nat} (hle : n ≤ m)
    (h : t.walk ending n here steps slashed = r) (hr : r ≠ .error .tooManyLinks) :
    t.walk ending m here steps slashed = r := by
  rw [← Nat.add_sub_cancel' hle]
  exact walk_add h hr (m - n)

theorem walk_keep_of_append (hending : ending ≠ .create) {p q : List String}
    (h : t.walk ending n here (p ++ q) slashed = .ok l) :
    ∃ m, t.walk .keep n here p false = .ok m := by
  -- `p` grows where a link is entered, so the induction is on all that is left to walk
  generalize hsteps : p ++ q = steps at h
  induction n, here, steps using walk_induction generalizing p slashed with
  | nil n here =>
    obtain ⟨rfl, -⟩ := List.append_eq_nil_iff.mp hsteps
    exact ⟨here, by simp⟩
  | cons n here s rest ihrest ihn =>
    cases p with
    | nil => exact ⟨here, by simp⟩
    | cons s' p =>
      rw [List.cons_append] at hsteps
      obtain ⟨rfl, rfl⟩ := List.cons.inj hsteps
      rw [walk_cons] at h ⊢
      cases hturn : t.turn here s' with
      | error e => simp [hturn] at h
      | ok x =>
        rw [hturn] at h
        cases x with
        | onto l => exact ihrest l rfl h
        | free l => simp [hending] at h
        | link l target =>
          cases p with
          | nil => exact ⟨l, by simp⟩
          | cons s p =>
            simp only [List.cons_append, List.isEmpty_cons, Bool.false_and] at h
            by_cases hempty : target = ""
            · simp [hempty] at h
            · cases n with
              | zero => simp [hempty, jump] at h
              | succ k =>
                simp only [hempty, jump, if_false, Bool.false_eq_true, Bool.or_false] at h
                obtain ⟨m, hm⟩ := ihn k rfl _ _ (p := (Route.ofString target).steps ++ s :: p)
                  (by simp) h
                exact ⟨m, by simpa [hempty, jump] using hm⟩

def withoutDots (steps : List String) : List String :=
  steps.filter (· ≠ ".")

theorem walk_dot (hrest : rest ≠ []) :
    t.walk ending n here ("." :: rest) slashed = t.walk ending n here rest slashed := by
  obtain ⟨s, rest, rfl⟩ := List.exists_cons_of_ne_nil hrest
  rw [walk_cons]
  cases hdot : t.turn here "." with
  | error e =>
    have hs : t.turn here s = .error e := by
      unfold turn at hdot ⊢
      grind
    rw [walk_cons, hs]
  | ok x =>
    have hx : x = .onto here := by
      unfold turn at hdot
      grind
    rw [hx]

theorem withoutDots_eq_nil (h : steps.getLast? ≠ some ".") :
    withoutDots steps = [] ↔ steps = [] := by
  constructor
  · intro hnil
    cases hlast : steps.getLast? with
    | none => exact List.getLast?_eq_none_iff.mp hlast
    | some s =>
      have hmem : s ∈ withoutDots steps := by
        refine List.mem_filter.mpr ⟨List.mem_of_getLast? hlast, ?_⟩
        simpa using fun he : s = "." => h (he ▸ hlast)
      rw [hnil] at hmem
      exact absurd hmem List.not_mem_nil
  · rintro rfl
    rfl

theorem walk_cons_congr {rest' : List String} (hempty : rest.isEmpty = rest'.isEmpty)
    (hrest : ∀ l, t.walk ending n l rest slashed = t.walk ending n l rest' slashed)
    (hjump : ∀ k, k + 1 = n → ∀ l pre flag,
      t.walk ending k l (pre ++ rest) flag = t.walk ending k l (pre ++ rest') flag) :
    t.walk ending n here (s :: rest) slashed = t.walk ending n here (s :: rest') slashed := by
  rw [walk_cons, walk_cons]
  cases t.turn here s with
  | error e => rfl
  | ok x =>
    cases x with
    | onto l => exact hrest l
    | free l => rw [hempty]
    | link l target =>
      rw [hempty]
      cases n with
      | zero => rfl
      | succ k => simp only [jump, hjump k rfl]

theorem walk_withoutDots {p q : List String} (hq : q.getLast? ≠ some ".") :
    t.walk ending n here (p ++ withoutDots q) slashed = t.walk ending n here (p ++ q) slashed := by
  generalize hsteps : p ++ q = steps
  induction n, here, steps using walk_induction generalizing p q slashed with
  | nil n here =>
    obtain ⟨rfl, rfl⟩ := List.append_eq_nil_iff.mp hsteps
    rfl
  | cons n here s rest ihrest ihn =>
    cases p with
    | nil =>
      obtain rfl : q = s :: rest := hsteps
      have hlast : rest.getLast? ≠ some "." := by
        cases rest with
        | nil => simp
        | cons r rest => simpa [List.getLast?_cons_cons] using hq
      by_cases hs : s = "."
      · have hrest : rest ≠ [] := by
          rintro rfl
          simp [hs] at hq
        have hfilter : withoutDots (s :: rest) = withoutDots rest := by simp [withoutDots, hs]
        rw [hfilter, hs, walk_dot hrest]
        exact ihrest here (p := []) hlast rfl
      · have hfilter : withoutDots (s :: rest) = s :: withoutDots rest := by simp [withoutDots, hs]
        rw [List.nil_append, hfilter]
        apply walk_cons_congr
        · rw [Bool.eq_iff_iff, List.isEmpty_iff, List.isEmpty_iff, withoutDots_eq_nil hlast]
        · exact fun l => ihrest l (p := []) hlast rfl
        · exact fun k hk l pre flag => ihn k hk l _ hlast rfl
    | cons s' p =>
      rw [List.cons_append] at hsteps ⊢
      obtain ⟨rfl, rfl⟩ := List.cons.inj hsteps
      apply walk_cons_congr
      · rw [Bool.eq_iff_iff, List.isEmpty_iff, List.isEmpty_iff]
        simp only [List.append_eq_nil_iff, withoutDots_eq_nil hq]
      · exact fun l => ihrest l hq rfl
      · intro k hk l pre flag
        rw [← List.append_assoc, ← List.append_assoc]
        exact ihn k hk l _ hq rfl

/-- A walk that passes a location it can reach goes on from there with the links that are left; it
is given up if there were not enough of them. -/
theorem exists_walk_append {p : List String} {flag : Bool}
    (h : t.walk .follow n here p flag = .ok l) :
    ∃ j ≤ n, ∀ ending q slashed, q ≠ [] →
      (∀ k, t.walk ending (j + k) here (p ++ q) slashed = t.walk ending k l q slashed) ∧
      ∀ k < j, t.walk ending k here (p ++ q) slashed = .error .tooManyLinks := by
  induction n, here, p using walk_induction generalizing flag with
  | nil n here =>
    rw [walk_nil] at h
    split at h
    · exact absurd h nofun
    · obtain rfl := Except.ok.inj h
      refine ⟨0, Nat.zero_le n, fun ending q slashed _ => ⟨fun k => ?_, fun k hk => ?_⟩⟩
      · rw [Nat.zero_add, List.nil_append]
      · exact absurd hk (Nat.not_lt_zero k)
  | cons n here s rest ihrest ihn =>
    rw [walk_cons] at h
    cases hturn : t.turn here s with
    | error e => simp [hturn] at h
    | ok x =>
      rw [hturn] at h
      cases x with
      | onto m =>
        obtain ⟨j, hj, hrun⟩ := ihrest m h
        refine ⟨j, hj, fun ending q slashed hq => ⟨fun k => ?_, fun k hk => ?_⟩⟩
        · rw [List.cons_append, walk_cons, hturn]
          exact (hrun ending q slashed hq).1 k
        · rw [List.cons_append, walk_cons, hturn]
          exact (hrun ending q slashed hq).2 k hk
      | free m => simp at h
      | link m target =>
        by_cases hempty : target = ""
        · simp [hempty] at h
        · cases n with
          | zero => simp [hempty, jump] at h
          | succ n =>
            simp only [hempty, jump, if_false, reduceCtorEq, decide_false, Bool.and_false,
              Bool.false_eq_true] at h
            obtain ⟨j, hj, hrun⟩ := ihn n rfl _ _ h
            have hnext (ending : Ending) (q : List String) (slashed : Bool) (hq : q ≠ [])
                (k : Nat) :
                t.walk ending (k + 1) here (s :: rest ++ q) slashed =
                  t.walk ending k (landing here target)
                    ((Route.ofString target).steps ++ rest ++ q) slashed := by
              have hne : (rest ++ q).isEmpty = false := by simp [hq]
              rw [List.cons_append, walk_cons, hturn, hne]
              simp [hempty, jump]
            -- the link itself is one more that has to be followed
            refine ⟨j + 1, Nat.succ_le_succ hj, fun ending q slashed hq => ?_⟩
            refine ⟨fun k => ?_, fun k hk => ?_⟩
            · rw [Nat.add_right_comm, hnext ending q slashed hq]
              exact (hrun ending q slashed hq).1 k
            · cases k with
              | zero =>
                have hne : (rest ++ q).isEmpty = false := by simp [hq]
                rw [List.cons_append, walk_cons, hturn, hne]
                simp [hempty, jump]
              | succ k =>
                rw [hnext ending q slashed hq]
                exact (hrun ending q slashed hq).2 k (Nat.lt_of_succ_lt_succ hk)

end DeletionGuard.FileTree
