import DeletionGuard.Proofs.FileTree.Walking

/-!
Where components lead if links may be followed without end. It is determined, it can be cut between
any two components, and every walk that comes to an end leads there, except that a walk may keep a
link at its very end. Along the true place of an entry a walk leads to that place or fails.
-/
namespace DeletionGuard.FileTree

/-- Components lead from a location to another, with all links followed. -/
inductive Leads (t : FileTree) : Location → List String → Location → Prop where
  | stay (here : Location) : Leads t here [] here
  | onto {here l m : Location} {s : String} {rest : List String}
      (hturn : t.turn here s = .ok (.onto l))
      (hrest : Leads t l rest m) : Leads t here (s :: rest) m
  | link {here l k m : Location} {s target : String} {rest : List String}
      (hturn : t.turn here s = .ok (.link l target))
      (htarget : Leads t (landing here target) (Route.ofString target).steps k)
      (hrest : Leads t k rest m) : Leads t here (s :: rest) m

variable {t : FileTree} {ending : Ending} {n : Nat} {here l m : Location} {s : String}
  {steps rest : List String} {slashed : Bool}

theorem Leads.unique (h : t.Leads here steps l) (h' : t.Leads here steps m) : l = m := by
  induction h generalizing m with
  | stay here =>
    cases h'
    rfl
  | onto hturn _ ih =>
    cases h' with
    | onto hturn' hrest' =>
      rw [hturn] at hturn'
      cases hturn'
      exact ih hrest'
    | link hturn' _ _ =>
      rw [hturn] at hturn'
      cases hturn'
  | link hturn _ _ ihtarget ihrest =>
    cases h' with
    | onto hturn' _ =>
      rw [hturn] at hturn'
      cases hturn'
    | link hturn' htarget' hrest' =>
      rw [hturn] at hturn'
      cases hturn'
      obtain rfl := ihtarget htarget'
      exact ihrest hrest'

theorem leads_append {p q : List String} :
    t.Leads here (p ++ q) l ↔ ∃ k, t.Leads here p k ∧ t.Leads k q l := by
  induction p generalizing here with
  | nil =>
    constructor
    · intro h
      exact ⟨here, .stay here, h⟩
    · rintro ⟨k, hk, hq⟩
      cases hk
      exact hq
  | cons s p ih =>
    constructor
    · intro h
      cases h with
      | onto hturn hrest =>
        obtain ⟨k, hk, hq⟩ := ih.mp hrest
        exact ⟨k, .onto hturn hk, hq⟩
      | link hturn htarget hrest =>
        obtain ⟨k, hk, hq⟩ := ih.mp hrest
        exact ⟨k, .link hturn htarget hk, hq⟩
    · rintro ⟨k, hk, hq⟩
      cases hk with
      | onto hturn hrest => exact .onto hturn (ih.mpr ⟨k, hrest, hq⟩)
      | link hturn htarget hrest => exact .link hturn htarget (ih.mpr ⟨k, hrest, hq⟩)

def Solid (t : FileTree) (l : Location) : Prop :=
  ∃ e, t.find? l = some e ∧ e.isLink = false

theorem solid_nil (t : FileTree) : t.Solid [] :=
  ⟨_, find?_nil t, rfl⟩

theorem solid_of_isDir (h : t.isDir l = true) : t.Solid l := by
  obtain ⟨d, hd⟩ := isDir_iff.mp h
  exact ⟨_, hd, rfl⟩

theorem Solid.names (h : t.Solid l) : ∀ s ∈ l, IsName s := by
  obtain ⟨e, he, -⟩ := h
  exact isName_of_find? he

theorem Solid.dropLast (h : t.Solid l) : t.Solid l.dropLast := by
  obtain ⟨e, he, -⟩ := h
  exact solid_of_isDir (isDir_dropLast he)

theorem solid_landing (h : t.Solid here) (target : String) : t.Solid (landing here target) := by
  unfold landing
  split
  · exact solid_nil t
  · exact h

theorem solid_of_turn (h : t.Solid here) (hturn : t.turn here s = .ok (.onto l)) : t.Solid l := by
  obtain ⟨-, rfl⟩ | ⟨-, rfl⟩ | ⟨-, -, -, hl⟩ := turn_onto hturn
  · exact h
  · exact h.dropLast
  · exact hl

theorem Leads.solid (h : t.Leads here steps l) (hhere : t.Solid here) : t.Solid l := by
  induction h with
  | stay here => exact hhere
  | onto hturn _ ih => exact ih (solid_of_turn hhere hturn)
  | link _ _ _ ihtarget ihrest => exact ihrest (ihtarget (solid_landing hhere _))

theorem leads_cons_link {target : String} (hturn : t.turn here s = .ok (.link l target)) :
    t.Leads here (s :: rest) m ↔
      t.Leads (landing here target) ((Route.ofString target).steps ++ rest) m := by
  rw [leads_append]
  constructor
  · intro h
    cases h with
    | onto hturn' _ =>
      rw [hturn] at hturn'
      cases hturn'
    | link hturn' htarget hrest =>
      rw [hturn] at hturn'
      cases hturn'
      exact ⟨_, htarget, hrest⟩
  · rintro ⟨k, htarget, hrest⟩
    exact .link hturn htarget hrest

theorem leads_of_walk (hfollow : ending = .follow ∨ ending = .keep ∧ slashed = true)
    (h : t.walk ending n here steps slashed = .ok l) : t.Leads here steps l := by
  have hcreate : ending ≠ .create := by
    obtain rfl | ⟨rfl, -⟩ := hfollow <;> exact nofun
  induction n, here, steps using walk_induction generalizing slashed with
  | nil n here =>
    rw [walk_nil] at h
    split at h
    · exact absurd h nofun
    · rw [← Except.ok.inj h]
      exact .stay here
  | cons n here s rest ihrest ihn =>
    rw [walk_cons] at h
    cases hturn : t.turn here s with
    | error e => simp [hturn] at h
    | ok x =>
      rw [hturn] at h
      cases x with
      | onto m => exact .onto hturn (ihrest m hfollow h)
      | free m => simp [hcreate] at h
      | link m target =>
        have hkept : (rest.isEmpty && !slashed && decide (ending = .keep)) = false := by
          obtain rfl | ⟨rfl, rfl⟩ := hfollow <;> simp
        simp only [hkept, Bool.false_eq_true, if_false] at h
        split at h
        · exact absurd h nofun
        · cases n with
          | zero => exact absurd h nofun
          | succ k =>
            refine (leads_cons_link hturn).mpr (ihn k rfl _ _ ?_ h)
            obtain rfl | ⟨rfl, rfl⟩ := hfollow
            · exact .inl rfl
            · exact .inr ⟨rfl, rfl⟩

inductive Arrives (t : FileTree) (here : Location) (s : String) (l : Location) : Prop where
  | onto (hturn : t.turn here s = .ok (.onto l))
  | link (target : String) (hturn : t.turn here s = .ok (.link l target))

theorem arrives_of_walk (hne : steps ≠ []) (h : t.walk .keep n here steps false = .ok l) :
    ∃ m, t.Leads here steps.dropLast m ∧ t.Arrives m (steps.getLast hne) l := by
  induction n, here, steps using walk_induction with
  | nil n here => exact absurd rfl hne
  | cons n here s rest ihrest ihn =>
    rw [walk_cons] at h
    cases hturn : t.turn here s with
    | error e => simp [hturn] at h
    | ok x =>
      rw [hturn] at h
      by_cases hrest : rest = []
      · subst hrest
        refine ⟨here, .stay here, ?_⟩
        cases x with
        | onto m =>
          obtain rfl : m = l := by simpa using h
          exact .onto hturn
        | free m => simp at h
        | link m target =>
          obtain rfl : m = l := by simpa using h
          exact .link target hturn
      · rw [List.dropLast_cons_of_ne_nil hrest, List.getLast_cons hrest]
        cases x with
        | onto m =>
          obtain ⟨k, hlead, harrive⟩ := ihrest m hrest h
          exact ⟨k, .onto hturn hlead, harrive⟩
        | free m => simp at h
        | link m target =>
          have hempty : rest.isEmpty = false := by simpa using hrest
          simp only [hempty, Bool.false_and, Bool.false_eq_true, if_false, Bool.or_false] at h
          split at h
          · exact absurd h nofun
          · cases n with
            | zero => exact absurd h nofun
            | succ k =>
              have hne' : (Route.ofString target).steps ++ rest ≠ [] := by simp [hrest]
              obtain ⟨k, hlead, harrive⟩ := ihn k rfl _ _ hne' h
              rw [List.dropLast_append_of_ne_nil hrest] at hlead
              rw [List.getLast_append_of_ne_nil hne' hrest] at harrive
              exact ⟨k, (leads_cons_link hturn).mpr hlead, harrive⟩

theorem occupied_of_walk (hhere : t.Solid here) (h : t.walk .keep n here steps false = .ok l) :
    t.Occupied l := by
  by_cases hne : steps = []
  · subst hne
    obtain rfl : here = l := by simpa using h
    obtain ⟨e, he, -⟩ := hhere
    exact ⟨e, he⟩
  · obtain ⟨m, hlead, harrive⟩ := arrives_of_walk hne h
    cases harrive with
    | onto hturn =>
      obtain ⟨e, he, -⟩ := solid_of_turn (hlead.solid hhere) hturn
      exact ⟨e, he⟩
    | link target hturn => exact ⟨_, (turn_link hturn).2.2.2⟩

theorem Arrives.cases_name (h : t.Arrives here s l) (hdot : s ≠ ".") (hup : s ≠ "..") :
    l = here ++ [s] ∧ ∃ e, t.find? l = some e := by
  cases h with
  | onto hturn =>
    obtain ⟨h, -⟩ | ⟨h, -⟩ | ⟨-, -, hl, e, he, -⟩ := turn_onto hturn
    · exact absurd h hdot
    · exact absurd h hup
    · exact ⟨hl, e, he⟩
  | link target hturn =>
    obtain ⟨-, -, hl, he⟩ := turn_link hturn
    exact ⟨hl, _, he⟩

theorem Arrives.of_link {target : String} (h : t.Arrives here s l) (hhere : t.Solid here)
    (hlink : t.find? l = some (.link target)) :
    t.turn here s = .ok (.link l target) := by
  cases h with
  | onto hturn =>
    obtain ⟨e, he, hsolid⟩ := solid_of_turn hhere hturn
    rw [hlink] at he
    rw [← Option.some.inj he] at hsolid
    exact absurd hsolid nofun
  | link target' hturn =>
    have hfind := (turn_link hturn).2.2.2
    rw [hlink] at hfind
    cases hfind
    exact hturn

theorem Leads.eq_place {t' : FileTree} (hpart : t'.PartOf t) (hplace : t.Solid (here ++ steps))
    (h : t'.Leads here steps l) : l = here ++ steps := by
  induction steps generalizing here with
  | nil =>
    cases h
    exact (List.append_nil l).symm
  | cons s rest ih =>
    rw [List.append_cons] at hplace ⊢
    obtain ⟨e, he, hlink⟩ := hplace
    have hname : IsName s := isName_of_find? he s (by simp)
    cases h with
    | onto hturn hrest =>
      obtain ⟨hdot, -⟩ | ⟨hup, -⟩ | ⟨-, -, rfl, -⟩ := turn_onto hturn
      · exact absurd hdot hname.2.1
      · exact absurd hup hname.2.2.1
      · exact ih ⟨e, he, hlink⟩ hrest
    | @link _ m k _ _ target _ hturn htarget hrest =>
      obtain ⟨-, -, rfl, hfind⟩ := turn_link hturn
      have hfind' : t.find? (here ++ [s]) = some (.link target) := hpart _ _ hfind
      have hdir : t.isDir (here ++ [s]) = false := by
        rw [isDir, hfind']
        rfl
      -- a link has nothing below it, so it would be the entry itself
      rw [← eq_of_below (List.prefix_append _ _) he hdir, hfind'] at he
      rw [← Option.some.inj he] at hlink
      exact absurd hlink nofun

def Plain (t : FileTree) (l : Location) : Prop :=
  ∀ front s, l = front ++ [s] → t.Solid front ∧ s ≠ "." ∧ s ≠ ".."

theorem plain_append_singleton (hfront : t.Solid l) (hdot : s ≠ ".") (hup : s ≠ "..") :
    t.Plain (l ++ [s]) := by
  intro front s' heq
  obtain ⟨rfl, rfl⟩ := List.append_singleton_inj.mp heq
  exact ⟨hfront, hdot, hup⟩

theorem plain_of_find? {e : Entry} (h : t.find? l = some e) : t.Plain l := by
  rintro front s rfl
  have hname : IsName s := isName_of_find? h s (by simp)
  exact ⟨solid_of_isDir (isDir_of_find?_append h), hname.2.1, hname.2.2.1⟩

theorem eq_of_walk_follow {t' : FileTree} (hpart : t'.PartOf t) (hsolid : t.Solid steps)
    (h : t'.walk .follow n [] steps slashed = .ok l) : l = steps := by
  have hplace : t.Solid ([] ++ steps) := hsolid
  exact (leads_of_walk (.inl rfl) h).eq_place hpart hplace

theorem eq_of_walk_keep {t' : FileTree} (hpart : t'.PartOf t) (hplain : t.Plain steps)
    (h : t'.walk .keep n [] steps steps.isEmpty = .ok l) : l = steps := by
  by_cases hne : steps = []
  · subst hne
    simpa using h.symm
  · rw [List.isEmpty_eq_false_iff.mpr hne] at h
    obtain ⟨m, hlead, harrive⟩ := arrives_of_walk hne h
    obtain ⟨hsolid, hdot, hup⟩ := hplain _ _ (List.dropLast_concat_getLast hne).symm
    have hplace : t.Solid ([] ++ steps.dropLast) := hsolid
    have hm : m = steps.dropLast := hlead.eq_place hpart hplace
    rw [(harrive.cases_name hdot hup).1, hm, List.dropLast_concat_getLast hne]

theorem walk_place {e : Entry} (h : t.find? (here ++ steps) = some e) :
    t.walk .keep n here steps false = .ok (here ++ steps) ∨
      t.walk .keep n here steps false = .error .noAccess ∨
      t.walk .keep n here steps false = .error .nameTooLong := by
  induction steps generalizing here with
  | nil => exact .inl (by simp)
  | cons s rest ih =>
    have hdir : t.isDir here = true := isDir_of_append (List.cons_ne_nil s rest) h
    have hname : IsName s := isName_of_find? h s (by simp)
    rw [List.append_cons] at h ⊢
    rw [walk_cons]
    cases hturn : t.turn here s with
    | error x =>
      obtain rfl | rfl := turn_error hdir hturn
      · exact .inr (.inl rfl)
      · exact .inr (.inr rfl)
    | ok x =>
      cases x with
      | onto l =>
        obtain ⟨hdot, -⟩ | ⟨hup, -⟩ | ⟨-, -, rfl, -⟩ := turn_onto hturn
        · exact absurd hdot hname.2.1
        · exact absurd hup hname.2.2.1
        · exact ih h
      | free l =>
        obtain ⟨rfl, hnone⟩ := turn_free hturn
        by_cases hrest : rest = []
        · rw [hrest, List.append_nil, hnone] at h
          exact absurd h nofun
        · obtain ⟨d, hd⟩ := isDir_iff.mp (isDir_of_append hrest h)
          rw [hnone] at hd
          exact absurd hd nofun
      | link l target =>
        obtain ⟨-, -, rfl, hlink⟩ := turn_link hturn
        by_cases hrest : rest = []
        · subst hrest
          exact .inl (by simp)
        · obtain ⟨d, hd⟩ := isDir_iff.mp (isDir_of_append hrest h)
          rw [hlink] at hd
          exact absurd hd nofun

end DeletionGuard.FileTree
