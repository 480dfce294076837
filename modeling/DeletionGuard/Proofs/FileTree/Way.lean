import DeletionGuard.Proofs.FileTree.Reach

/-!
The way of a walk. A location is open if every directory above it may be searched; the system then
finds what lies there by its canonical path. On the way of a walk all locations are open, so one
that is found at all is found by its canonical path, too, unless that path is too long for a call.
-/
namespace DeletionGuard

/-- An error of a walk that does not mean that nothing is there. -/
def Errno.Bars (x : Errno) : Prop :=
  x = .noAccess ∨ x = .nameTooLong ∨ x = .tooManyLinks

theorem Errno.Bars.ne {x : Errno} (h : x.Bars) : x ≠ .noEntry ∧ x ≠ .notDirectory := by
  obtain rfl | rfl | rfl := h <;> decide

namespace FileTree
variable {t : FileTree} {P : Location → Prop} {ending : Ending} {n a b : Nat}
  {here l m k : Location} {s target : String} {p q steps rest : List String} {slashed : Bool}
  {e : Entry} {x : Errno}

/-- Every directory above a location may be searched, and no name on the way is too long. -/
def Open (t : FileTree) (l : Location) : Prop :=
  ∀ front s, front ++ [s] <+: l →
    (∃ deny, t.find? front = some (.dir deny) ∧ deny.search = false) ∧ s.utf8ByteSize ≤ maxName

theorem open_nil (t : FileTree) : t.Open [] := by
  intro front s h
  simp at h

theorem Open.above (h : t.Open l) (hbelow : k <+: l) : t.Open k :=
  fun front s hfront => h front s (hfront.trans hbelow)

theorem Open.dropLast (h : t.Open l) : t.Open l.dropLast :=
  h.above (List.dropLast_prefix l)

theorem Open.append_singleton (h : t.Open l) {deny : Deny} (hfind : t.find? l = some (.dir deny))
    (hsearch : deny.search = false) (hs : s.utf8ByteSize ≤ maxName) : t.Open (l ++ [s]) := by
  intro front n hfront
  obtain heq | hfront := List.prefix_concat_iff.mp hfront
  · obtain ⟨rfl, rfl⟩ := List.append_singleton_inj.mp heq
    exact ⟨⟨deny, hfind, hsearch⟩, hs⟩
  · exact h front n hfront

theorem searchable_of_turn {x : Turn} (h : t.turn here s = .ok x) :
    ∃ deny, t.find? here = some (.dir deny) ∧ deny.search = false := by
  unfold turn at h
  split at h
  · rename_i deny hfind
    split at h
    · exact absurd h nofun
    · rename_i hsearch
      exact ⟨deny, hfind, by simpa using hsearch⟩
  · exact absurd h nofun

theorem size_of_turn {x : Turn} (h : t.turn here s = .ok x) (hdot : s ≠ ".") (hup : s ≠ "..") :
    s.utf8ByteSize ≤ maxName := by
  obtain ⟨deny, hfind, hsearch⟩ := searchable_of_turn h
  unfold turn at h
  simp only [hfind, hsearch, Bool.false_eq_true, if_false, if_neg hdot, if_neg hup] at h
  split at h
  · exact absurd h nofun
  · rename_i hsize
    omega

theorem Open.of_turn {x : Turn} (hopen : t.Open here) (h : t.turn here s = .ok x) (hdot : s ≠ ".")
    (hup : s ≠ "..") : t.Open (here ++ [s]) := by
  obtain ⟨deny, hfind, hsearch⟩ := searchable_of_turn h
  exact hopen.append_singleton hfind hsearch (size_of_turn h hdot hup)

theorem Open.of_onto (hopen : t.Open here) (h : t.turn here s = .ok (.onto l)) : t.Open l := by
  obtain ⟨-, rfl⟩ | ⟨-, rfl⟩ | ⟨hdot, hup, rfl, -⟩ := turn_onto h
  · exact hopen
  · exact hopen.dropLast
  · exact hopen.of_turn h hdot hup

theorem Open.of_link (hopen : t.Open here) (h : t.turn here s = .ok (.link l target)) :
    t.Open l := by
  obtain ⟨hdot, hup, rfl, -⟩ := turn_link h
  exact hopen.of_turn h hdot hup

theorem open_landing (h : t.Open here) (target : String) : t.Open (landing here target) := by
  unfold landing
  split
  · exact open_nil t
  · exact h

theorem Leads.open (h : t.Leads here steps l) (hhere : t.Open here) : t.Open l := by
  induction h with
  | stay here => exact hhere
  | onto hturn _ ih => exact ih (hhere.of_onto hturn)
  | link _ _ _ ihtarget ihrest => exact ihrest (ihtarget (open_landing hhere _))

theorem turn_of_open (hopen : t.Open (here ++ [s])) (hfind : t.find? (here ++ [s]) = some e) :
    t.turn here s = .ok (.onto (here ++ [s])) ∧ e.isLink = false ∨
      ∃ target, t.turn here s = .ok (.link (here ++ [s]) target) ∧ e = .link target := by
  obtain ⟨⟨deny, hdir, hsearch⟩, hsize⟩ := hopen here s (List.prefix_refl _)
  have hname : IsName s := isName_of_find? hfind s (by simp)
  have hlong : ¬maxName < s.utf8ByteSize := by omega
  unfold turn
  simp only [hdir, hsearch, Bool.false_eq_true, if_false, if_neg hname.2.1, if_neg hname.2.2.1,
    if_neg hlong, hfind]
  cases e with
  | link target => exact .inr ⟨target, rfl, rfl⟩
  | file | dir | fifo => exact .inl ⟨rfl, rfl⟩

theorem turn_of_open_link (hopen : t.Open (here ++ [s]))
    (hfind : t.find? (here ++ [s]) = some (.link target)) :
    t.turn here s = .ok (.link (here ++ [s]) target) := by
  obtain ⟨-, hplain⟩ | ⟨target', hturn, htarget⟩ := turn_of_open hopen hfind
  · exact absurd hplain nofun
  · rw [hturn, Entry.link.inj htarget]

theorem walk_of_open (hopen : t.Open (here ++ steps)) (hfind : t.find? (here ++ steps) = some e) :
    t.walk .keep n here steps false = .ok (here ++ steps) := by
  induction steps generalizing here with
  | nil => simp
  | cons s rest ih =>
    rw [List.append_cons] at hopen hfind ⊢
    have hocc : ∃ e, t.find? (here ++ [s]) = some e := by
      by_cases hrest : rest = []
      · rw [hrest, List.append_nil] at hfind
        exact ⟨e, hfind⟩
      · obtain ⟨deny, hdir⟩ := isDir_iff.mp (isDir_of_append hrest hfind)
        exact ⟨_, hdir⟩
    obtain ⟨e', he'⟩ := hocc
    rw [walk_cons]
    obtain ⟨hturn, -⟩ | ⟨target, hturn, rfl⟩ := turn_of_open (hopen.above ⟨rest, rfl⟩) he'
    · rw [hturn]
      exact ih hopen hfind
    · rw [hturn]
      -- nothing lies below a link, so it is the end of the walk
      have hrest : rest = [] := by
        by_cases hrest : rest = []
        · exact hrest
        · obtain ⟨deny, hdir⟩ := isDir_iff.mp (isDir_of_append hrest hfind)
          rw [he'] at hdir
          exact absurd hdir nofun
      simp [hrest]

theorem bars_of_turn (h : t.turn here s = .error x) : x = .notDirectory ∨ x.Bars := by
  cases hdir : t.isDir here with
  | true =>
    obtain h | h := turn_error hdir h
    · exact .inr (.inl h)
    · exact .inr (.inr (.inl h))
  | false =>
    unfold turn at h
    split at h
    · rename_i deny hfind
      rw [isDir_iff.mpr ⟨deny, hfind⟩] at hdir
      exact absurd hdir nofun
    · exact .inl (Except.error.inj h).symm

theorem walk_error (h : t.walk ending n here steps slashed = .error x) :
    x = .noEntry ∨ x = .notDirectory ∨ x.Bars := by
  induction n, here, steps using walk_induction generalizing slashed with
  | nil n here =>
    rw [walk_nil] at h
    split at h
    · exact .inr (.inl (Except.error.inj h).symm)
    · exact absurd h nofun
  | cons n here s rest ihrest ihn =>
    rw [walk_cons] at h
    cases hturn : t.turn here s with
    | error y =>
      rw [hturn] at h
      obtain rfl := Except.error.inj h
      exact .inr (bars_of_turn hturn)
    | ok turn =>
      rw [hturn] at h
      cases turn with
      | onto l => exact ihrest l h
      | free l =>
        simp only at h
        split at h
        · exact absurd h nofun
        · exact .inl (Except.error.inj h).symm
      | link l target =>
        simp only at h
        split at h
        · exact absurd h nofun
        · split at h
          · exact .inl (Except.error.inj h).symm
          · cases n with
            | zero => exact .inr (.inr (.inr (.inr (Except.error.inj h).symm)))
            | succ k => exact ihn k rfl _ _ h

theorem turn_eq_noAccess_iff : t.turn here s = .error .noAccess ↔
    ∃ deny, t.find? here = some (.dir deny) ∧ deny.search = true := by
  unfold turn
  grind

theorem turn_eq_nameTooLong_iff : t.turn here s = .error .nameTooLong ↔
    (∃ deny, t.find? here = some (.dir deny) ∧ deny.search = false) ∧ s ≠ "." ∧ s ≠ ".." ∧
      maxName < s.utf8ByteSize := by
  unfold turn
  grind

/-- Components lead part of the way over a number of links, and the others are left. -/
inductive Goes (t : FileTree) : Location → List String → Nat → Location → List String → Prop where
  | stay (here : Location) (steps : List String) : Goes t here steps 0 here steps
  | onto {here l m : Location} {s : String} {rest left : List String} {n : Nat}
      (hturn : t.turn here s = .ok (.onto l)) (hrest : Goes t l rest n m left) :
      Goes t here (s :: rest) n m left
  | link {here l m : Location} {s target : String} {rest left : List String} {n : Nat}
      (hturn : t.turn here s = .ok (.link l target)) (hne : target ≠ "")
      (hrest : Goes t (landing here target) ((Route.ofString target).steps ++ rest) n m left) :
      Goes t here (s :: rest) (n + 1) m left

/-- What bars a walk that may follow a number of links: it comes to a directory that may not be
searched, to a name that is too long, or to one link too many. -/
inductive Hindered (t : FileTree) (n : Nat) (here : Location) (steps : List String) :
    Errno → Prop where
  | search {a : Nat} {m : Location} {s : String} {left : List String} {deny : Deny}
      (hway : t.Goes here steps a m (s :: left)) (ha : a ≤ n)
      (hdir : t.find? m = some (.dir deny)) (hsearch : deny.search = true) :
      Hindered t n here steps .noAccess
  | name {a : Nat} {m : Location} {s : String} {left : List String} {deny : Deny}
      (hway : t.Goes here steps a m (s :: left)) (ha : a ≤ n)
      (hdir : t.find? m = some (.dir deny)) (hsearch : deny.search = false)
      (hname : s ≠ "." ∧ s ≠ "..") (hlong : maxName < s.utf8ByteSize) :
      Hindered t n here steps .nameTooLong
  | links {m : Location} {left : List String} (hway : t.Goes here steps (n + 1) m left) :
      Hindered t n here steps .tooManyLinks

theorem Hindered.bars (h : t.Hindered n here steps x) : x.Bars := by
  cases h with
  | search => exact .inl rfl
  | name => exact .inr (.inl rfl)
  | links => exact .inr (.inr rfl)

theorem hindered_of_turn (h : t.turn here s = .error x) (hbars : x.Bars) (rest : List String) :
    t.Hindered n here (s :: rest) x := by
  obtain rfl | rfl | rfl := hbars
  · obtain ⟨deny, hdir, hsearch⟩ := turn_eq_noAccess_iff.mp h
    exact .search (.stay here _) (Nat.zero_le n) hdir hsearch
  · obtain ⟨⟨deny, hdir, hsearch⟩, hdot, hup, hlong⟩ := turn_eq_nameTooLong_iff.mp h
    exact .name (.stay here _) (Nat.zero_le n) hdir hsearch ⟨hdot, hup⟩ hlong
  · unfold turn at h
    grind

theorem Hindered.onto (hturn : t.turn here s = .ok (.onto l)) (h : t.Hindered n l rest x) :
    t.Hindered n here (s :: rest) x := by
  cases h with
  | search hway ha hdir hsearch => exact .search (.onto hturn hway) ha hdir hsearch
  | name hway ha hdir hsearch hname hlong =>
    exact .name (.onto hturn hway) ha hdir hsearch hname hlong
  | links hway => exact .links (.onto hturn hway)

theorem Hindered.link (hturn : t.turn here s = .ok (.link l target)) (hne : target ≠ "")
    (h : t.Hindered n (landing here target) ((Route.ofString target).steps ++ rest) x) :
    t.Hindered (n + 1) here (s :: rest) x := by
  cases h with
  | search hway ha hdir hsearch =>
    exact .search (.link hturn hne hway) (Nat.succ_le_succ ha) hdir hsearch
  | name hway ha hdir hsearch hname hlong =>
    exact .name (.link hturn hne hway) (Nat.succ_le_succ ha) hdir hsearch hname hlong
  | links hway => exact .links (.link hturn hne hway)

theorem walk_link (hturn : t.turn here s = .ok (.link l target)) (hne : target ≠ "")
    (rest : List String) (slashed : Bool) : t.walk .follow n here (s :: rest) slashed =
      t.jump .follow n (landing here target) ((Route.ofString target).steps ++ rest)
        (slashed || rest.isEmpty && (Route.ofString target).slashed) := by
  rw [walk_cons, hturn]
  simp [hne]

theorem Goes.walk (h : t.Goes here steps a m rest) (ha : a ≤ n) (slashed : Bool) :
    ∃ slashed', t.walk .follow n here steps slashed = t.walk .follow (n - a) m rest slashed' := by
  induction h generalizing n slashed with
  | stay here steps => exact ⟨slashed, rfl⟩
  | onto hturn _ ih =>
    obtain ⟨slashed', hwalk⟩ := ih ha slashed
    exact ⟨slashed', by rw [walk_cons, hturn, ← hwalk]⟩
  | link hturn hne _ ih =>
    cases n with
    | zero => exact absurd ha (Nat.not_succ_le_zero _)
    | succ n =>
      obtain ⟨slashed', hwalk⟩ := ih (Nat.le_of_succ_le_succ ha) _
      exact ⟨slashed', by rw [walk_link hturn hne, jump, hwalk, Nat.add_sub_add_right]⟩

theorem Goes.walk_of_lt (h : t.Goes here steps a m rest) (ha : n < a) (slashed : Bool) :
    t.walk .follow n here steps slashed = .error .tooManyLinks := by
  induction h generalizing n slashed with
  | stay here steps => exact absurd ha (Nat.not_lt_zero n)
  | onto hturn _ ih => rw [walk_cons, hturn, ← ih ha slashed]
  | link hturn hne _ ih =>
    rw [walk_link hturn hne]
    cases n with
    | zero => rfl
    | succ n => exact ih (Nat.lt_of_succ_lt_succ ha) _

theorem Hindered.walk (h : t.Hindered n here steps x) (slashed : Bool) :
    t.walk .follow n here steps slashed = .error x := by
  cases h with
  | search hway ha hdir hsearch =>
    obtain ⟨slashed', hwalk⟩ := hway.walk ha slashed
    rw [hwalk, walk_cons, turn_eq_noAccess_iff.mpr ⟨_, hdir, hsearch⟩]
  | name hway ha hdir hsearch hname hlong =>
    obtain ⟨slashed', hwalk⟩ := hway.walk ha slashed
    rw [hwalk, walk_cons,
      turn_eq_nameTooLong_iff.mpr ⟨⟨_, hdir, hsearch⟩, hname.1, hname.2, hlong⟩]
  | links hway => exact hway.walk_of_lt (Nat.lt_succ_self n) slashed

/-- A walk is barred just if something on its way hinders it. -/
theorem walk_hindered_iff : t.walk .follow n here steps slashed = .error x ∧ x.Bars ↔
    t.Hindered n here steps x := by
  refine ⟨?_, fun h => ⟨h.walk slashed, h.bars⟩⟩
  rintro ⟨h, hbars⟩
  have hnone {y : Errno} (hy : (.error y : Except Errno Location) = .error x)
      (hmissing : y = .noEntry ∨ y = .notDirectory) : False := by
    obtain rfl := Except.error.inj hy
    exact hmissing.elim hbars.ne.1 hbars.ne.2
  induction n, here, steps using walk_induction generalizing slashed with
  | nil n here =>
    rw [walk_nil] at h
    split at h
    · exact (hnone h (.inr rfl)).elim
    · cases h
  | cons n here s rest ihrest ihn =>
    cases hturn : t.turn here s with
    | error y =>
      rw [walk_cons, hturn] at h
      obtain rfl := Except.error.inj h
      exact hindered_of_turn hturn hbars rest
    | ok turn =>
      cases turn with
      | onto l =>
        rw [walk_cons, hturn] at h
        exact (ihrest l h).onto hturn
      | free l =>
        rw [walk_cons, hturn] at h
        exact (hnone h (.inl rfl)).elim
      | link l target =>
        by_cases hempty : target = ""
        · rw [walk_cons, hturn] at h
          simp only [hempty, if_true, Bool.and_false, reduceCtorEq, decide_false,
            Bool.false_eq_true, if_false] at h
          exact (hnone h (.inl rfl)).elim
        · rw [walk_link hturn hempty] at h
          cases n with
          | zero =>
            obtain rfl := Except.error.inj h
            exact .links (.link hturn hempty (.stay _ _))
          | succ n => exact (ihn n rfl _ _ h).link hturn hempty

/-- Components lead from a location to another over a number of links, and something holds of every
location that they are turned to. -/
inductive Passes (t : FileTree) (P : Location → Prop) :
    Location → List String → Nat → Location → Prop where
  | stay (here : Location) : Passes t P here [] 0 here
  | onto {here l m : Location} {s : String} {rest : List String} {n : Nat}
      (hturn : t.turn here s = .ok (.onto l)) (hl : P l)
      (hrest : Passes t P l rest n m) : Passes t P here (s :: rest) n m
  | link {here l k m : Location} {s target : String} {rest : List String} {a b : Nat}
      (hturn : t.turn here s = .ok (.link l target)) (hl : P l)
      (htarget : Passes t P (landing here target) (Route.ofString target).steps a k)
      (hrest : Passes t P k rest b m) : Passes t P here (s :: rest) (a + b + 1) m

theorem Passes.leads (h : t.Passes P here steps n l) : t.Leads here steps l := by
  induction h with
  | stay here => exact .stay here
  | onto hturn _ _ ih => exact .onto hturn ih
  | link hturn _ _ _ ihtarget ihrest => exact .link hturn ihtarget ihrest

theorem Passes.unique (h : t.Passes P here steps a l) (h' : t.Passes P here steps b m) :
    a = b ∧ l = m := by
  induction h generalizing b m with
  | stay here =>
    cases h'
    exact ⟨rfl, rfl⟩
  | onto hturn _ _ ih =>
    cases h' with
    | onto hturn' _ hrest' =>
      rw [hturn] at hturn'
      cases hturn'
      exact ih hrest'
    | link hturn' _ _ _ =>
      rw [hturn] at hturn'
      cases hturn'
  | link hturn _ _ _ ihtarget ihrest =>
    cases h' with
    | onto hturn' _ _ =>
      rw [hturn] at hturn'
      cases hturn'
    | link hturn' _ htarget' hrest' =>
      rw [hturn] at hturn'
      cases hturn'
      obtain ⟨rfl, rfl⟩ := ihtarget htarget'
      obtain ⟨rfl, rfl⟩ := ihrest hrest'
      exact ⟨rfl, rfl⟩

theorem Passes.append (h : t.Passes P here p a k) (h' : t.Passes P k q b l) :
    t.Passes P here (p ++ q) (a + b) l := by
  induction h with
  | stay here => simpa using h'
  | onto hturn hl _ ih => exact .onto hturn hl (ih h')
  | @link _ _ _ _ _ _ _ c d hturn hl htarget _ _ ihrest =>
    have hcount : c + d + 1 + b = c + (d + b) + 1 := by omega
    rw [List.cons_append, hcount]
    exact .link hturn hl htarget (ihrest h')

theorem passes_of_open (hopen : t.Open (here ++ steps)) (hfind : t.find? (here ++ steps) = some e)
    (hplain : e.isLink = false) (hP : ∀ m, m <+: here ++ steps → P m) :
    t.Passes P here steps 0 (here ++ steps) := by
  induction steps generalizing here with
  | nil =>
    rw [List.append_nil]
    exact .stay here
  | cons s rest ih =>
    rw [List.append_cons] at hopen hfind hP ⊢
    have hhere : here ++ [s] <+: here ++ [s] ++ rest := List.prefix_append _ _
    have hseen : ∃ e', t.find? (here ++ [s]) = some e' ∧ e'.isLink = false := by
      by_cases hrest : rest = []
      · rw [hrest, List.append_nil] at hfind
        exact ⟨e, hfind, hplain⟩
      · obtain ⟨deny, hdeny⟩ := isDir_iff.mp (isDir_of_append hrest hfind)
        exact ⟨_, hdeny, rfl⟩
    obtain ⟨e', he', hplain'⟩ := hseen
    obtain ⟨hturn, -⟩ | ⟨target, -, rfl⟩ := turn_of_open (hopen.above hhere) he'
    · exact .onto hturn (hP _ hhere) (ih hopen hfind hP)
    · exact absurd hplain' nofun

theorem Passes.le_of_walk (h : t.Passes P here steps a m)
    (hwalk : t.walk .follow n here steps slashed = .ok l) : a ≤ n := by
  induction n, here, steps using walk_induction generalizing a m slashed with
  | nil n here =>
    cases h
    exact Nat.zero_le n
  | cons n here s rest ihrest ihn =>
    rw [walk_cons] at hwalk
    cases h with
    | onto hturn hl hrest =>
      rw [hturn] at hwalk
      exact ihrest _ hrest hwalk
    | @link _ _ _ _ _ target _ c d hturn hl htarget hrest =>
      rw [hturn] at hwalk
      by_cases hempty : target = ""
      · simp [hempty] at hwalk
      · cases n with
        | zero => simp [hempty, jump] at hwalk
        | succ n =>
          simp only [hempty, jump, if_false, reduceCtorEq, decide_false, Bool.and_false,
            Bool.false_eq_true] at hwalk
          have hle := ihn n rfl _ _ (htarget.append hrest) hwalk
          omega

end FileTree
end DeletionGuard
