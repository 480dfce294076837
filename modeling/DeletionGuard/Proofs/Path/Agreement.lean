import DeletionGuard.Proofs.Path.Resolution

/-!
The strict form of resolution and the walk of the system agree. Resolution compares no permissions
and counts no links, but where the system comes to an end at all, it is the same end. What is needed
of the paths in between is that each stands for one location, and that a step of resolution keeps to
it.
-/
namespace DeletionGuard.World
open FileTree
variable {w : World} {R : Path → Location → Prop} {p q here : Path} {l m : Location}
  {memo memo' : Memo} {s : String} {pieces : List String} {e : Entry}

/-- Paths stand for locations, and still do after a step of resolution. -/
structure Seating (w : World) (R : Path → Location → Prop) : Prop where
  root : R ⟨.single, []⟩ []
  solid : ∀ p l, R p l → w.tree.Solid l
  unique : ∀ p l m, R p l → R p m → l = m
  ascend : ∀ p l, R p l → R p.ascend l.dropLast
  seen : ∀ p l s e, R p l → Path.isPart s = true → '/' ∉ s.toList → s ≠ ".." →
    w.lstat (p.child s).text = .ok e → w.tree.find? (l ++ [s]) = some e
  child : ∀ p l s e, R p l → w.tree.find? (l ++ [s]) = some e → e.isLink = false →
    R (p.child s) (l ++ [s])

theorem Seating.closed (hseating : Seating w R) : Closed w true fun p => ∃ l, R p l where
  root := ⟨[], hseating.root⟩
  ascend p := fun ⟨l, h⟩ => ⟨l.dropLast, hseating.ascend p l h⟩
  child p s := fun ⟨l, h⟩ hpart hslash hup hseen => by
    obtain ⟨e, he, hplain⟩ | ⟨hlenient, -⟩ := hseen
    · have hfind := hseating.seen p l s e h hpart hslash hup he
      exact ⟨l ++ [s], hseating.child p l s e h hfind hplain⟩
    · exact absurd hlenient nofun

/-- What is remembered of a link is where it leads, if it leads anywhere. -/
def Memo.Faithful (t : FileTree) (R : Path → Location → Prop) (memo : Memo) : Prop :=
  ∀ here l s known, (here.child s, some known) ∈ memo → R here l → ∀ target k,
    t.turn l s = .ok (.link (l ++ [s]) target) →
    t.Leads (landing l target) (Route.ofString target).steps k → R known k

theorem Memo.Faithful.nil (t : FileTree) : Memo.Faithful t R [] :=
  fun _ _ _ _ hmem => absurd hmem List.not_mem_nil

theorem Memo.Faithful.cons_none (h : Memo.Faithful w.tree R memo) (p : Path) :
    Memo.Faithful w.tree R ((p, none) :: memo) := by
  intro here l s known hmem
  obtain heq | hmem := List.mem_cons.mp hmem
  · exact absurd (Prod.mk.inj heq).2 nofun
  · exact h here l s known hmem

theorem Memo.Faithful.cons_some (h : Memo.Faithful w.tree R memo) (hseating : Seating w R)
    (hhere : R here l) (hq : R q m) {target : String}
    (hturn : w.tree.turn l s = .ok (.link (l ++ [s]) target))
    (htarget : w.tree.Leads (landing l target) (Route.ofString target).steps m) :
    Memo.Faithful w.tree R ((here.child s, some q) :: memo) := by
  intro here' l' s' known hmem hhere' target' k hturn' htarget'
  obtain heq | hmem := List.mem_cons.mp hmem
  · obtain ⟨hpath, hknown⟩ := Prod.mk.inj heq
    obtain ⟨rfl, rfl⟩ := Path.child_inj.mp hpath
    obtain rfl := hseating.unique here' l l' hhere hhere'
    rw [hturn] at hturn'
    cases hturn'
    rwa [Option.some.inj hknown, htarget'.unique htarget]
  · exact h here' l' s' known hmem hhere' target' k hturn' htarget'

theorem Memo.Faithful.lookup (h : Memo.Faithful w.tree R memo) (hhere : R here l)
    {target : String} (hturn : w.tree.turn l s = .ok (.link (l ++ [s]) target))
    (htarget : w.tree.Leads (landing l target) (Route.ofString target).steps m)
    (hknown : memo.lookup (here.child s) = some (some q)) : R q m := by
  obtain ⟨front, back, rfl, -⟩ := List.lookup_eq_some_iff.mp hknown
  exact h here l s q (by simp) hhere target m hturn htarget

theorem leads_rest_of_up {rest : List String} (hlead : w.tree.Leads l (".." :: rest) m) :
    w.tree.Leads l.dropLast rest m := by
  cases hlead with
  | onto hturn hrest =>
    obtain ⟨hdot, -⟩ | ⟨-, rfl⟩ | ⟨-, hne, -, -⟩ := turn_onto hturn
    · exact absurd hdot (by decide)
    · exact hrest
    · exact absurd rfl hne
  | link hturn _ _ => exact absurd rfl (turn_link hturn).2.1

theorem leads_rest_of_plain {rest : List String} (hlead : w.tree.Leads l (s :: rest) m)
    (hdot : s ≠ ".") (hup : s ≠ "..") (hfind : w.tree.find? (l ++ [s]) = some e)
    (hplain : e.isLink = false) : w.tree.Leads (l ++ [s]) rest m := by
  cases hlead with
  | onto hturn hrest =>
    obtain ⟨h, -⟩ | ⟨h, -⟩ | ⟨-, -, rfl, -⟩ := turn_onto hturn
    · exact absurd h hdot
    · exact absurd h hup
    · exact hrest
  | link hturn _ _ =>
    obtain ⟨-, -, rfl, hlink⟩ := turn_link hturn
    rw [hfind] at hlink
    rw [Option.some.inj hlink] at hplain
    exact absurd hplain nofun

theorem leads_rest_of_link {rest : List String} {target : String}
    (hlead : w.tree.Leads l (s :: rest) m) (hdot : s ≠ ".") (hup : s ≠ "..")
    (hfind : w.tree.find? (l ++ [s]) = some (.link target)) :
    ∃ k, w.tree.turn l s = .ok (.link (l ++ [s]) target) ∧
      w.tree.Leads (landing l target) (Route.ofString target).steps k ∧ w.tree.Leads k rest m := by
  cases hlead with
  | onto hturn _ =>
    obtain ⟨h, -⟩ | ⟨h, -⟩ | ⟨-, -, rfl, e, he, hplain⟩ := turn_onto hturn
    · exact absurd h hdot
    · exact absurd h hup
    · rw [hfind] at he
      rw [← Option.some.inj he] at hplain
      exact absurd hplain nofun
  | link hturn htarget hrest =>
    obtain ⟨-, -, rfl, hlink⟩ := turn_link hturn
    rw [hfind] at hlink
    cases hlink
    exact ⟨_, hturn, htarget, hrest⟩

theorem leads_withoutDots {steps : List String} (hlead : w.tree.Leads l steps m) :
    w.tree.Leads l (withoutDots steps) m := by
  induction hlead with
  | stay here => exact .stay here
  | @onto here l m s rest hturn hrest ih =>
    by_cases hs : s = "."
    · obtain ⟨-, rfl⟩ | ⟨hup, -⟩ | ⟨hne, -⟩ := turn_onto hturn
      · rwa [withoutDots, List.filter_cons_of_neg (by simpa using hs)]
      · exact absurd (hs.symm.trans hup) (by decide)
      · exact absurd hs hne
    · rw [withoutDots, List.filter_cons_of_pos (by simpa using hs)]
      exact .onto hturn ih
  | @link _ _ _ _ s _ _ hturn htarget _ _ ihrest =>
    rw [withoutDots, List.filter_cons_of_pos (by simpa using (turn_link hturn).1)]
    exact .link hturn htarget ihrest

/-- Pieces are resolved to where they lead, if the targets of links are. -/
theorem scan_leads {enter : Path → String → Memo → Except Failure Progress}
    (hseating : Seating w R)
    (henter : ∀ here l target memo q memo' k, R here l → Memo.Faithful w.tree R memo →
      w.tree.Leads (landing l target) (Route.ofString target).steps k →
      enter here target memo = .ok (.reached q memo') → R q k ∧ Memo.Faithful w.tree R memo')
    (hpieces : ∀ s ∈ pieces, '/' ∉ s.toList) (hhere : R here l)
    (hmemo : Memo.Faithful w.tree R memo) (hlead : w.tree.Leads l (pieces.filter Path.isPart) m)
    (h : w.scan true enter here pieces memo = .ok (.reached q memo')) :
    R q m ∧ Memo.Faithful w.tree R memo' := by
  induction pieces generalizing here l memo with
  | nil =>
    rw [scan] at h
    obtain ⟨rfl, rfl⟩ : here = q ∧ memo = memo' := by simpa using h
    cases hlead
    exact ⟨hhere, hmemo⟩
  | cons s rest ih =>
    have hslash : '/' ∉ s.toList := hpieces s List.mem_cons_self
    have hrest : ∀ s ∈ rest, '/' ∉ s.toList := fun s hs => hpieces s (List.mem_cons_of_mem _ hs)
    cases piece_of_scan h with
    | nothing hpart h =>
      rw [List.filter_cons_of_neg (by simp [hpart])] at hlead
      exact ih hrest hhere hmemo hlead h
    | up hup h =>
      subst hup
      rw [List.filter_cons_of_pos (by decide)] at hlead
      exact ih hrest (hseating.ascend here l hhere) hmemo (leads_rest_of_up hlead) h
    | unseen _ hlenient _ _ _ _ => cases hlenient
    | plain e hplain hpart hup hseen h =>
      rw [List.filter_cons_of_pos hpart] at hlead
      have hfind := hseating.seen here l s e hhere hpart hslash hup hseen
      have hlead' := leads_rest_of_plain hlead (Path.isPart_iff.mp hpart).2 hup hfind hplain
      exact ih hrest (hseating.child here l s e hhere hfind hplain) hmemo hlead' h
    | known target known hpart hup hseen hknown h =>
      rw [List.filter_cons_of_pos hpart] at hlead
      have hfind := hseating.seen here l s _ hhere hpart hslash hup hseen
      obtain ⟨k, hturn, htarget, hlead'⟩ :=
        leads_rest_of_link hlead (Path.isPart_iff.mp hpart).2 hup hfind
      exact ih hrest (hmemo.lookup hhere hturn htarget hknown) hmemo hlead' h
    | entered target known memo₁ hpart hup hseen hknown h =>
      rw [List.filter_cons_of_pos hpart] at hlead
      have hfind := hseating.seen here l s _ hhere hpart hslash hup hseen
      obtain ⟨k, hturn, htarget, hlead'⟩ :=
        leads_rest_of_link hlead (Path.isPart_iff.mp hpart).2 hup hfind
      obtain ⟨hk, hmemo₁⟩ := henter _ _ _ _ _ _ _ hhere (hmemo.cons_none _) htarget hknown
      exact ih hrest hk (hmemo₁.cons_some hseating hhere hk hturn htarget) hlead' h
    | circle _ hlenient _ => cases hlenient
    | caught _ _ _ _ hstuck => cases hstuck

theorem resolveText_leads {depth : Nat} {text : String} (hseating : Seating w R)
    (hhere : R here l) (hmemo : Memo.Faithful w.tree R memo)
    (hlead : w.tree.Leads (landing l text) (Path.ofString text).parts m)
    (h : w.resolveText true depth here text memo = .ok (.reached q memo')) :
    R q m ∧ Memo.Faithful w.tree R memo' := by
  induction depth generalizing here l text memo m q memo' with
  | zero => exact absurd h nofun
  | succ depth ih =>
    have hstart : R (if Text.startsWith text "/" then Path.mk .single [] else here)
        (landing l text) := by
      unfold landing Route.ofString
      dsimp only
      split
      · exact hseating.root
      · exact hhere
    rw [resolveText] at h
    refine scan_leads hseating (fun _ _ target _ _ _ _ hhere hmemo hlead h => ?_)
      (fun s hs => Text.not_mem_of_mem_cut hs) hstart hmemo hlead h
    refine ih hhere hmemo ?_ h
    rw [Path.parts_ofString]
    exact leads_withoutDots hlead

def IsPlace (w : World) (p : Path) (l : Location) : Prop :=
  p = ⟨.single, l⟩ ∧ w.tree.Solid l

theorem seating_isPlace (w : World) : Seating w w.IsPlace where
  root := ⟨rfl, solid_nil w.tree⟩
  solid _ _ h := h.2
  unique _ _ _ h h' := (Path.mk.inj (h.1.symm.trans h'.1)).2
  ascend _ _ h := ⟨by rw [h.1]; rfl, h.2.dropLast⟩
  seen _ _ _ _ h hpart hslash hup hseen :=
    find?_of_lstat_child h.2 hpart hslash hup (by rwa [h.1] at hseen)
  child _ _ _ e h hfind hplain := ⟨by rw [h.1]; rfl, e, hfind, hplain⟩

/-- Where the system comes to an end along a path, the strict form ends as well. -/
theorem resolveStrict_leads (hp : p.Proper) (habs : p.isAbsolute = true)
    (hlead : w.tree.Leads [] p.parts m) (h : w.resolveStrict p = .ok q) : q = ⟨.single, m⟩ := by
  obtain ⟨-, memo, hreached⟩ := reached_of_resolveStrict habs h
  -- the text of the path is absolute, so it does not matter where resolution starts
  have hstart : w.resolveText true w.maxDepth ⟨.single, []⟩ p.text [] = .ok (.reached q memo) := by
    rw [← hreached, maxDepth, resolveText, resolveText, if_pos (Path.startsWith_text habs),
      if_pos (Path.startsWith_text habs)]
  have hroute : w.tree.Leads (landing [] p.text) (Path.ofString p.text).parts m := by
    rw [landing, Path.route_text hp habs, Path.ofString_text hp habs]
    exact hlead
  have hseating := seating_isPlace w
  exact (resolveText_leads hseating hseating.root (.nil _) hroute hstart).1.1

end DeletionGuard.World
