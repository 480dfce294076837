import DeletionGuard.Proofs.Run.Verdicts
import DeletionGuard.Proofs.Target.Canonical

/-!
Links and where they lead. The destination of a link is resolved leniently: what cannot be examined
is taken as it is written. So a verdict on a link rests on the place to which the system comes only
if every call on the way is answered.
-/
namespace DeletionGuard
open FileTree

namespace World
variable {w : World} {base root p q : Path} {raw path : String} {t : Target} {l : Location}
  {n : Nat} {x : Errno}

theorem stat_error (hp : p.Proper) (habs : p.isAbsolute = true)
    (h : w.stat p.text = .error (.call x path)) : x = .noEntry ∨ x = .notDirectory ∨ x.Bars := by
  obtain h | ⟨l, -, -, h⟩ := entryAt_eq_error h
  · rw [locate_text hp habs] at h
    split at h
    · exact absurd h nofun
    · split at h
      · obtain ⟨rfl, -⟩ := Failure.call.inj (Except.error.inj h)
        exact .inr (.inr (.inr (.inl rfl)))
      · cases hwalk : w.tree.walk .follow maxLinks [] p.parts p.parts.isEmpty with
        | error y =>
          rw [hwalk] at h
          obtain ⟨rfl, -⟩ := Failure.call.inj (Except.error.inj h)
          exact walk_error hwalk
        | ok l =>
          rw [hwalk] at h
          exact absurd h nofun
  · exact .inl (Failure.call.inj h).1

theorem stat_hindered_iff {e : Entry} (hp : p.Proper) (habs : p.isAbsolute = true)
    (hseen : w.lstat p.text = .ok e) : (∃ path, w.stat p.text = .error (.call x path)) ∧ x.Bars ↔
      w.tree.Hindered maxLinks [] p.parts x := by
  obtain ⟨m, hkeep, -⟩ := entryAt_eq_ok.mp hseen
  have hlocate : w.locate .follow p.text = (w.tree.walk .follow maxLinks [] p.parts
      p.parts.isEmpty).mapError (.call · p.text) := by
    rw [locate_text hp habs] at hkeep ⊢
    split at hkeep
    · cases hkeep
    · rename_i hnul
      split at hkeep
      · cases hkeep
      · rename_i hlong
        rw [if_neg hnul, if_neg hlong]
  constructor
  · rintro ⟨⟨path, h⟩, hbars⟩
    obtain h | ⟨l, -, -, h⟩ := entryAt_eq_error h
    · rw [hlocate, mapError_eq_error] at h
      obtain ⟨y, hwalk, h⟩ := h
      obtain ⟨rfl, -⟩ := Failure.call.inj h
      exact walk_hindered_iff.mp ⟨hwalk, hbars⟩
    · exact absurd (Failure.call.inj h).1 hbars.ne.1
  · intro h
    refine ⟨⟨p.text, ?_⟩, h.bars⟩
    rw [stat, entryAt, hlocate, h.walk]
    rfl

theorem destination_of_place {slashed flag : Bool} {kind : Kind}
    (h : w.place raw p slashed kind flag = .ok t) (hkind : t.kind = .symlink) :
    ∃ q, t.linkTarget = some q ∧ w.resolveLenient p = .ok q := by
  unfold place at h
  cases kind with
  | symlink =>
    simp only [bind_eq_ok] at h
    obtain ⟨parent, -, q, hq, h⟩ := h
    split at h
    · obtain ⟨isDir, -, rfl⟩ := map_eq_ok.mp h
      cases isDir with
      | true => exact absurd hkind nofun
      | false => exact ⟨q, rfl, hq⟩
    · rw [← Except.ok.inj h]
      exact ⟨q, rfl, hq⟩
  | missing | file | directory =>
    obtain ⟨resolved, -, rfl⟩ := map_eq_ok.mp h
    exact absurd hkind nofun

theorem destination_of_resolve (h : w.resolve base raw = .ok t) (hkind : t.kind = .symlink) :
    ∃ q, t.linkTarget = some q ∧ w.resolveLenient t.absolute = .ok q := by
  have habsolute := absolute_of_resolve h
  rw [resolve, mapError_eq_ok, bind_eq_ok] at h
  obtain ⟨⟨kind, flag⟩, -, hplace⟩ := h
  rw [habsolute]
  exact destination_of_place hplace hkind

theorem lstat_of_symlink (h : w.resolve base raw = .ok t) (hkind : t.kind = .symlink) :
    t.notDirectory = Text.endsWith raw "/" ∧
      ∃ target, w.lstat t.absolute.text = .ok (.link target) := by
  rw [absolute_of_resolve h]
  cases sighting_of_resolve h with
  | absent errno path hseen habsent hkind' hflag => exact absurd (hkind.symm.trans hkind') nofun
  | entry e hseen hplain hresolved hkind' hflag =>
    rw [hkind] at hkind'
    cases e with
    | link target => exact absurd hplain nofun
    | file | dir | fifo => exact absurd hkind' nofun
  | link target hseen parent hparent hresolved hkind' hflag => exact ⟨hflag, target, hseen⟩
  | through target hseen hresolved hdir hslash hkind' hflag =>
    exact absurd (hkind.symm.trans hkind') nofun

theorem linkTarget_of_passes (hproper : base.Proper) (habs : base.isAbsolute = true)
    (h : w.resolve base raw = .ok t) (hkind : t.kind = .symlink)
    (hend : w.locate .follow t.absolute.text = .ok l)
    (hpass : w.tree.Passes Fits [] t.absolute.parts n l) : t.linkTarget = some ⟨.single, l⟩ := by
  have hp : t.absolute.Proper := by
    rw [absolute_of_resolve h]
    exact proper_absolutePath hproper
  have ha : t.absolute.isAbsolute = true := by
    rw [absolute_of_resolve h]
    exact isAbsolute_absolutePath habs
  have hle : n ≤ maxLinks := hpass.le_of_walk (walk_of_locate hp ha hend)
  obtain ⟨-, target, hseen⟩ := lstat_of_symlink h hkind
  obtain ⟨m, -, hfind⟩ := entryAt_eq_ok.mp hseen
  obtain ⟨q, hq, hlenient⟩ := destination_of_resolve h hkind
  rw [hq, resolveLenient_passes hp ha (lt_maxDepth hfind hle) hpass hlenient]

/-- A path is hindered on its way, so that nobody knows whether it ends inside a boundary, or it
ends outside of the boundary though its resolution does not show it. -/
inductive Unverified (w : World) (root p : Path) : Prop where
  | barred (x : Errno) (hway : w.tree.Hindered maxLinks [] p.parts x)
  | strayed (l : Location) (hend : w.locate .follow p.text = .ok l)
      (hlong : ∀ n, ¬w.tree.Passes Fits [] p.parts n l)
      (hout : (Path.mk .single l).isWithin root = false)

end World

namespace Evaluator
variable {ev : Evaluator} {w : World} {flags : Flags} {raw : String} {t : Target} {o : Outcome}

theorem allowed_of_blocked (h : o.blocked = true) : o.allowed = false := by
  unfold Outcome.blocked at h
  unfold Outcome.allowed
  cases hv : o.verdict? with
  | none =>
    rw [hv] at h
    exact absurd h nofun
  | some v =>
    rw [hv, Option.any_some, Verdict.blocked] at h
    rw [Option.any_some]
    simpa using h

/-- An argument names a link, without a slash behind it, that no rule covers. -/
structure NamesLink (ev : Evaluator) (w : World) (raw : String) (t : Target) : Prop where
  resolved : w.resolve ev.base raw = .ok t
  link : t.kind = .symlink
  bare : Text.endsWith raw "/" = false
  uncovered : covered ev.guard.rules t.resolved = false

/-- A link is allowed to be removed only if what the system finds by following it lies in the
project, and it is refused if the system is barred from following it. -/
def VerifiesDestination (ev : Evaluator) (w : World) (flags : Flags) (raw : String) : Prop :=
  ∀ t, ev.NamesLink w raw t → ∃ o, ev.evaluate w flags raw = .ok o ∧
    (∀ l, w.locate .follow t.absolute.text = .ok l → o.allowed = true →
      (Path.mk .single l).isWithin ev.guard.projectRoot = true) ∧
    ∀ x path, w.stat t.absolute.text = .error (.call x path) → x ≠ .noEntry → x ≠ .notDirectory →
      o.blocked = true

theorem evaluate_link (flags : Flags) (h : ev.NamesLink w raw t) :
    ∃ v, ev.evaluate w flags raw = .ok ⟨raw, .judged t (.verdict v)⟩ ∧
      (v.allowed = true → t.isWithin ev.guard.projectRoot = true) := by
  obtain ⟨hflag, -⟩ := World.lstat_of_symlink h.resolved h.link
  have hexists : t.exists? = true := by
    rw [Target.exists?, h.link]
    rfl
  have hdir : t.isDir = false := by
    rw [Target.isDir, h.link]
    rfl
  have hboundary : ev.guard.boundary t =
      if t.isWithin ev.guard.projectRoot then none
      else some (.block ⟨.outsideProject, some t.absolute, none⟩) := by
    rw [Guard.boundary, h.uncovered]
    cases t.isWithin ev.guard.projectRoot <;> rfl
  unfold evaluate
  simp only [h.resolved, hboundary]
  cases hwithin : t.isWithin ev.guard.projectRoot with
  | false => exact ⟨_, rfl, fun hallowed => by cases hallowed⟩
  | true =>
    refine ⟨ev.guard.applyPolicy w t, ?_, fun _ => rfl⟩
    simp [answer, hflag, h.bare, hexists, hdir, Except.map]

/-- The destination of a link is verified just if no link that is allowed leads to a directory that
may not be searched, to a name that is too long or over too many links, or leads out of the project
over a place that no call takes. -/
theorem verifiesDestination_iff (hproper : ev.base.Proper) (habs : ev.base.isAbsolute = true) :
    ev.VerifiesDestination w flags raw ↔ ∀ t o, ev.NamesLink w raw t →
      ev.evaluate w flags raw = .ok o → o.allowed = true →
        ¬w.Unverified ev.guard.projectRoot t.absolute := by
  have hplace {t : Target} (hlink : ev.NamesLink w raw t) :
      t.absolute.Proper ∧ t.absolute.isAbsolute = true := by
    rw [World.absolute_of_resolve hlink.resolved]
    exact ⟨World.proper_absolutePath hproper, World.isAbsolute_absolutePath habs⟩
  constructor
  · intro hverifies t o hlink heval hallowed hunverified
    obtain ⟨o', heval', hinside, hbarred⟩ := hverifies t hlink
    obtain rfl := Except.ok.inj (heval.symm.trans heval')
    cases hunverified with
    | barred x hway =>
      obtain ⟨hp, ha⟩ := hplace hlink
      obtain ⟨-, target, hseen⟩ := World.lstat_of_symlink hlink.resolved hlink.link
      obtain ⟨⟨path, hstat⟩, hbars⟩ := (World.stat_hindered_iff hp ha hseen).mpr hway
      have hblocked := hbarred x path hstat hbars.ne.1 hbars.ne.2
      rw [allowed_of_blocked hblocked] at hallowed
      exact absurd hallowed nofun
    | strayed l hend hlong hout =>
      rw [hinside l hend hallowed] at hout
      exact absurd hout nofun
  · intro hverified t hlink
    obtain ⟨v, heval, hwithin⟩ := evaluate_link flags hlink
    obtain ⟨hp, ha⟩ := hplace hlink
    refine ⟨_, heval, fun l hend hallowed => ?_, fun x path hseen hentry hdirectory => ?_⟩
    · by_cases hpass : ∃ n, w.tree.Passes World.Fits [] t.absolute.parts n l
      · obtain ⟨n, hpass⟩ := hpass
        have hdestination :=
          World.linkTarget_of_passes hproper habs hlink.resolved hlink.link hend hpass
        have hinside := hwithin hallowed
        rw [Target.isWithin, hdestination] at hinside
        exact (Bool.and_eq_true_iff.mp hinside).2
      · have hnot := hverified t _ hlink heval hallowed
        rw [← Bool.not_eq_false]
        exact fun hout => hnot (.strayed l hend (fun n hn => hpass ⟨n, hn⟩) hout)
    · have hbars : x.Bars := by
        obtain rfl | rfl | hbars := World.stat_error hp ha hseen
        · exact absurd rfl hentry
        · exact absurd rfl hdirectory
        · exact hbars
      cases hallowed : v.allowed with
      | false =>
        have hblocked : v.blocked = true := by rw [Verdict.blocked, hallowed]; rfl
        exact hblocked
      | true =>
        obtain ⟨-, target, hkept⟩ := World.lstat_of_symlink hlink.resolved hlink.link
        have hway := (World.stat_hindered_iff hp ha hkept).mp ⟨⟨path, hseen⟩, hbars⟩
        exact absurd (.barred x hway) (hverified t _ hlink heval hallowed)

theorem verifiesDestination_beside :
    (free (Path.ofString "/p")).VerifiesDestination World.besideWorld ⟨false, false⟩ "k" := by
  refine (verifiesDestination_iff (Path.proper_ofString "/p") (by decide)).mpr ?_
  intro t o hlink heval hallowed hunverified
  have habsolute : t.absolute = World.besideWorld.absolutePath (Path.ofString "/p") "k" :=
    World.absolute_of_resolve hlink.resolved
  have hpath : World.besideWorld.absolutePath (Path.ofString "/p") "k" = Path.ofString "/p/k" := by
    decide +kernel
  have hfollow : World.besideWorld.locate .follow (Path.ofString "/p/k").text =
      .ok ["p", "d", "e"] := by rfl
  rw [habsolute, hpath] at hunverified
  cases hunverified with
  | barred x hway =>
    have hwalk : World.besideWorld.tree.walk .follow maxLinks [] (Path.ofString "/p/k").parts
        false = .ok ["p", "d", "e"] := by rfl
    cases hwalk.symm.trans (hway.walk false)
  | strayed l hend hlong hout =>
    rw [hfollow] at hend
    obtain rfl := Except.ok.inj hend
    exact absurd hout (by decide)

def hiddenWorld : World where
  tree := ((FileTree.empty.put ["p", "x"] (.dir ⟨false, false, true⟩)).put ["p", "x", "f"]
    (.file ByteArray.empty .nothing)).put ["p", "k"] (.link "x/f")
  cwd := "/p"
  env := []
  users := []
  ownHome := none
  git := none
  trashError := none

/-- The system may not look at where the link leads, but its removal is allowed. -/
theorem not_verifiesDestination_hidden :
    ¬(free (Path.ofString "/p")).VerifiesDestination hiddenWorld ⟨false, false⟩ "k" := by
  intro hverifies
  have hseen : (hiddenWorld.resolve (Path.ofString "/p") "k").toOption.map
      (fun t => (t.kind, t.absolute)) = some (.symlink, Path.ofString "/p/k") := by decide +kernel
  have hallowed : ((free (Path.ofString "/p")).evaluate hiddenWorld ⟨false, false⟩
      "k").toOption.map Outcome.allowed = some true := by decide +kernel
  have hstat : hiddenWorld.stat (Path.ofString "/p/k").text =
      .error (.call .noAccess (Path.ofString "/p/k").text) := by rfl
  obtain ⟨t, h, hfound⟩ := World.toOption_map_eq_some.mp hseen
  obtain ⟨hkind, habsolute⟩ := Prod.mk.inj hfound
  obtain ⟨o, heval, -, hbarred⟩ := hverifies t ⟨h, hkind, by decide, rfl⟩
  have hblocked := hbarred .noAccess _ (habsolute ▸ hstat) nofun nofun
  obtain ⟨o', heval', ho'⟩ := World.toOption_map_eq_some.mp hallowed
  obtain rfl := Except.ok.inj (heval.symm.trans heval')
  rw [allowed_of_blocked hblocked] at ho'
  exact absurd ho' nofun

end Evaluator
end DeletionGuard
